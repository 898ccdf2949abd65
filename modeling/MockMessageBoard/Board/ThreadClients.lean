import MockMessageBoard.Board.Chains
import MockMessageBoard.Lib.Rpc.Threads

/-!
# MockMessageBoard — the clients of the threads

With `SYNC` the handlers of MessageService and SanitizationService keep a client for
each of their threads, in a map that all of them share (`mock_map`, `sanit_map`): a
handler that finds no client under the id of its thread inserts a new one. The maps are
plain `unordered_map`s, and no lock is taken for them. Here each `find` and each
insertion is assumed to be one step, as if there were one; a service with one worker
thread needs no lock, as its handlers come one after the other.

* `remoteTask_equips` — what the `SYNC` branch does with the map;
* `thread_clients`    — a thread has one client for each service that it calls.
-/

namespace MockMessageBoard

open Rpc State Transition

/-- The client process on a service, which nobody calls. -/
def Service.owner : Service → Option Nat
  | .client pid => some pid
  | _ => none

/-- The client's processes are apart from the services. -/
theorem board_apart (b : Board) : Apart b.deployment Service.owner := by
  intro s hreach ⟨r, d⟩ call hcall
  obtain ⟨q, -, hop⟩ := requestAt_of_call hreach hcall
  show Service.owner (home call.op) = if d = 0 then some r.proc else none
  cases q with
  | find =>
    rcases requestAt_find hop with ⟨rfl, h⟩ | ⟨rfl, h⟩ | ⟨rfl, h⟩
    all_goals
      rw [h]
      rfl
  | send =>
    rcases requestAt_send hop with ⟨rfl, h⟩ | ⟨rfl, h⟩ | ⟨rfl, h⟩ | ⟨rfl, -, h⟩
    all_goals
      rw [h]
      rfl

/-- The remote task makes its call through the client that its thread has by then. -/
theorem remoteTask_equips {target : Service} {op : Request} (htarget : home op = target)
    {k : Value → Prog sig} (has : Service → Bool)
    (hk : ∀ has' v, (k v).Equips home has') :
    (remoteTask .sync target op k).Equips home has := by
  subst htarget
  show Prog.Equips (σ := sig) home has (if has (home op) = true then _ else _)
  split
  · rename_i hfound
    exact ⟨hfound, fun v => hk _ v⟩
  · rename_i hnew
    exact ⟨by simpa using hnew, if_pos rfl, fun v => hk _ v⟩

/-- The services, with `SYNC`, make a client where there is none, and a call where there
is one. -/
theorem handler_equips (op : Request) (hserved : (home op).owner = none)
    (has : Service → Bool) : (handler .sync op).Equips home has := by
  cases op with
  | query pid q => cases hserved
  | findLastMessage =>
    change Prog.Equips (σ := sig) home has (remoteTask .sync _ _ _)
    refine remoteTask_equips (by rfl) has fun has' v => ?_
    cases v <;> exact trivial
  | sendMessage =>
    change Prog.Equips (σ := sig) home has (remoteTask .sync _ _ _)
    refine remoteTask_equips (by rfl) has fun has' v => ?_
    cases v <;> exact trivial
  | sanitizeMessage =>
    show Prog.Equips (σ := sig) home has (if _ then _ else _)
    split
    · exact trivial
    · refine remoteTask_equips (by rfl) has fun has' v => ?_
      cases v <;> exact trivial
  | mockFindLastMessage =>
    intro w
    dsimp only
    split
    · exact fun _ => trivial
    · exact trivial
  | storeMessage => exact fun _ => trivial

/--
**One client for each thread.** In every run of the `SYNC` build, whatever calls fail and
whatever threads the handlers get, no two handlers of a service are on one thread. As long
as the accesses of a map do not overlap, each thread therefore inserts a client for a
service once at most, and exactly those are in the maps; and a handler that is about to
make its call has a client for the service it calls.
-/
theorem thread_clients {b : Board} (hsync : b.build = .sync) {ls : List Label} {s : Board.State}
    (hrun : run b.deployment.step b.deployment.init ls = some s) :
    (∀ c c' call call' tid p p', s.calls c = some call → call.phase = .running tid p →
      s.calls c' = some call' → call'.phase = .running tid p' → home call'.op = home call.op →
      c' = c) ∧
    (∀ svc tid target, svc.owner = none →
      (creations b.deployment b.deployment.init ls).count (svc, tid, target) =
        if s.clients svc tid target = true then 1 else 0) ∧
    ∀ c call tid op k, s.calls c = some call → call.phase = .running tid (.start op k) →
      (home call.op).owner = none → s.clients (home call.op) tid (home op) = true := by
  have hcode : ∀ op, (home op).owner = none → ∀ has, (b.deployment.code op).Equips home has := by
    intro op hserved has
    show (handler b.build op).Equips home has
    rw [hsync]
    exact handler_equips op hserved has
  have hthreaded := threaded_reaches (fun svc : Service => svc.owner = none) (board_apart b) hcode
    ⟨ls, hrun⟩
  refine ⟨fun c c' call call' tid p p' hcall hphase hcall' hphase' hhome => ?_,
    fun svc tid target hserved => ?_,
    fun c call tid op k hcall hphase hserved => ?_⟩
  · exact hthreaded.alone c' c (home call.op) tid p' p ⟨call', hcall', hphase', hhome⟩
      ⟨call, hcall, hphase, rfl⟩
  · exact count_creations (fun svc : Service => svc.owner = none) (board_apart b) hcode hrun
      hserved tid target
  · exact (hthreaded.equipped c (home call.op) tid _ ⟨call, hcall, hphase, rfl⟩ hserved).1

/-- The first `send` on a thread of MessageService. -/
theorem thread_clients_first :
    ∃ ls s, run (oneClient .sync [.send albert "hi".toList 0]).deployment.step
        (oneClient .sync [.send albert "hi".toList 0]).deployment.init ls = some s ∧
      (creations (oneClient .sync [.send albert "hi".toList 0]).deployment
        (oneClient .sync [.send albert "hi".toList 0]).deployment.init ls).count
        (.messageService, 7, .sanitizationService) = 1 := by
  have hrun : ∃ s, run (oneClient .sync [.send albert "hi".toList 0]).deployment.step
      (oneClient .sync [.send albert "hi".toList 0]).deployment.init
      (.issue 0 :: runs ⟨⟨0, 0⟩, 0⟩ 2 ++ .deliver ⟨⟨0, 0⟩, 1⟩ 7 :: runs ⟨⟨0, 0⟩, 1⟩ 3) = some s ∧
      s.clients .messageService 7 .sanitizationService = true := ⟨_, rfl, rfl⟩
  obtain ⟨s, hs, hclient⟩ := hrun
  obtain ⟨-, hcount, -⟩ := thread_clients rfl hs
  exact ⟨_, s, hs, (hcount .messageService 7 .sanitizationService rfl).trans (if_pos hclient)⟩

end MockMessageBoard
