import MockMessageBoard.Lib.Rpc.Causality

/-!
# Remote procedure calls — handlers that bracket their call

A handler that records something first, and at most once more when it has the reply
to its call, brackets whatever happens below: its first record comes before all of
it, its second one after all of it. That holds for every call of every run, also
where calls have failed or are under way.

* `Prog.Closes`        — handlers that do so;
* `below_before_await` — what happens below is over when the reply is taken;
* `brackets`           — the records of a call.
-/

namespace Rpc

open Transition Deployment State

variable {σ : Signature}

/-- How far a handler has got that has made its first record. -/
inductive Stage where
  | unsent
  | sent
  | settled
  | closed

/-- From `p` on the handler makes at most one call, and at most one record, with
which it waits for the reply. -/
def Prog.Closes : Prog σ → Stage → Prop
  | .record _ k, x => (x = .unsent ∨ x = .settled) ∧ k.Closes .closed
  | .findClient _ k, x => ∀ found, (k found).Closes x
  | .newClient _ k, x => k.Closes x
  | .start _ k, x => x = .unsent ∧ k.Closes .sent
  | .sleep k, x => k.Closes x
  | .await k, x => x = .sent ∧ ∀ v, (k v).Closes .settled
  | .access _ k, x => ∀ w, (k w).Closes x
  | .ret _, _ => True
  | .throw, _ => True

/-- The actions that a handler that closes can perform from a stage on. -/
inductive Stage.Admits : Stage → List (Act σ) → Prop
  | done {x} : Admits x []
  | record {x n t} (hx : x = .unsent ∨ x = .settled) (h : Admits .closed t) :
      Admits x (.record n :: t)
  | start {op t} (h : Admits .sent t) : Admits .unsent (.start op :: t)
  | await {v t} (h : Admits .settled t) : Admits .sent (.await v :: t)
  | access {x a w t} (h : Admits x t) : Admits x (.access a w :: t)
  | finish {x o t} (h : Admits x t) : Admits x (.finish o :: t)

theorem Prog.Closes.admits {p : Prog σ} {x : Stage} {t : List (Act σ)} (h : p.Closes x)
    (ht : Upto p t) : x.Admits t := by
  obtain ⟨z, hpath⟩ := ht
  generalize hy : Control.running p = y at hpath
  induction hpath generalizing p x with
  | here => exact .done
  | @step r a y t z hnext htail ih =>
    cases hy
    cases hnext with
    | record => exact .record h.1 (ih h.2 rfl)
    | findClient found => exact ih (h found) rfl
    | @newClient target k => exact ih (show k.Closes x from h) rfl
    | @sleep k => exact ih (show k.Closes x from h) rfl
    | start =>
      obtain ⟨rfl, hk⟩ := h
      exact .start (ih hk rfl)
    | await v =>
      obtain ⟨rfl, hk⟩ := h
      exact .await (ih (hk v) rfl)
    | access w => exact .access (ih (h w) rfl)
    | abort | ret | throw =>
      obtain ⟨rfl, -⟩ := path_returned.mp htail
      exact .finish .done

namespace Stage.Admits

variable {x : Stage} {t : List (Act σ)}

/-- Only who has not made a call makes one. -/
theorem start_notMem (h : x.Admits t) (hx : x ≠ .unsent) (op : σ.Op) : .start op ∉ t := by
  induction h with
  | done => exact List.not_mem_nil
  | record _ _ ih | await _ ih => simpa using ih nofun
  | start => exact absurd rfl hx
  | access _ ih | finish _ ih => simpa using ih hx

/-- Who has made both records makes none. -/
theorem record_notMem (h : x.Admits t) (hx : x = .closed) (n : σ.Note) : .record n ∉ t := by
  induction h with
  | done => exact List.not_mem_nil
  | record hx' =>
    subst hx
    rcases hx' with h | h <;> cases h
  | start | await => cases hx
  | access _ ih | finish _ ih => simpa using ih hx

/-- There is one record at most. -/
theorem countP_le (h : x.Admits t) : t.countP Act.isRecord ≤ 1 := by
  induction h with
  | done => exact Nat.zero_le _
  | @record x n t hx h ih =>
    have hnone : t.countP Act.isRecord = 0 := by
      refine List.countP_eq_zero.mpr fun a ha hrecord => ?_
      cases a with
      | record n => exact h.record_notMem rfl n ha
      | _ => cases hrecord
    rw [List.countP_cons_of_pos rfl, hnone]
  | start _ ih | await _ ih | access _ ih | finish _ ih => exact ih

/-- Who has made a call makes the record after the reply. -/
theorem await_mem (h : x.Admits t) (hx : x = .sent) {pre post : List (Act σ)} {n : σ.Note}
    (ht : t = pre ++ .record n :: post) : ∃ v, .await v ∈ pre := by
  induction h generalizing pre with
  | done => cases (List.append_eq_nil_iff.mp ht.symm).2
  | record hx' =>
    subst hx
    rcases hx' with h | h <;> cases h
  | start => cases hx
  | @await v t =>
    cases pre with
    | nil => cases ht
    | cons a pre =>
      cases ht
      exact ⟨v, List.mem_cons_self⟩
  | access _ ih | finish _ ih =>
    cases pre with
    | nil => cases ht
    | cons a pre =>
      obtain ⟨v, hv⟩ := ih hx (List.cons.inj ht).2
      exact ⟨v, List.mem_cons_of_mem _ hv⟩

/-- The record comes after the reply, if there is a call. -/
theorem await_mem_or (h : x.Admits t) (hx : x = .unsent) {pre post : List (Act σ)} {n : σ.Note}
    (ht : t = pre ++ .record n :: post) : (∃ v, .await v ∈ pre) ∨ ∀ op, .start op ∉ t := by
  induction h generalizing pre with
  | done => cases (List.append_eq_nil_iff.mp ht.symm).2
  | record _ h => exact .inr fun op => by simpa using h.start_notMem nofun op
  | await => cases hx
  | start h =>
    cases pre with
    | nil => cases ht
    | cons a pre =>
      obtain ⟨v, hv⟩ := h.await_mem rfl (List.cons.inj ht).2
      exact .inl ⟨v, List.mem_cons_of_mem _ hv⟩
  | access _ ih | finish _ ih =>
    cases pre with
    | nil => cases ht
    | cons a pre =>
      rcases ih hx (List.cons.inj ht).2 with ⟨v, hv⟩ | hnone
      · exact .inl ⟨v, List.mem_cons_of_mem _ hv⟩
      · exact .inr fun op => by simpa using hnone op

end Stage.Admits

variable [DecidableEq σ.Svc] {D : Deployment σ} {s : State σ}

section Reachable

variable (hreach : Reaches D.step D.init s)

include hreach

/-- Whatever happens below a call is over when its reply is taken. -/
theorem below_before_await (hjoins : ∀ op, Joins (D.code op)) {e e' : Event σ} {v : σ.Val}
    (he : e ∈ s.history) (hact : e.act = .await v) (he' : e' ∈ s.history)
    (hrequest : e'.call.request = e.call.request) (hdepth : e.call.depth < e'.call.depth) :
    e'.seq < e.seq := by
  by_cases hchild : e'.call = e.call.child
  · exact beforeAwait_reaches hreach e he e' he' v hact hchild
  · obtain ⟨callee, hcallee, hphase, -⟩ :=
      ends_of_await hreach (mem_trail.mpr ⟨e, he, rfl, hact⟩)
    obtain ⟨e₁, he₁, hec₁, hact₁⟩ := mem_trail.mp (finish_of_returned hreach hcallee hphase)
    have hdeeper : e₁.call.depth < e'.call.depth := by
      rw [hec₁, CallId.child_depth]
      refine Nat.lt_of_le_of_ne hdepth fun hsame => hchild ?_
      rw [CallId.child, ← hrequest, hsame]
    obtain ⟨e₂, he₂, hec₂, -, hlt, -⟩ :=
      before_finish hreach hjoins he₁ he' hact₁ (by rw [hec₁, CallId.child_request, hrequest])
        hdeeper
    exact hlt.trans (beforeAwait_reaches hreach e he e₂ he₂ v hact (hec₂.trans hec₁))

theorem eventsOf_ordered (c : CallId) : (s.eventsOf c).Pairwise fun e e' => e.seq < e'.seq :=
  (history_sorted hreach).filter _

/-- **The records of a call.** There are two at most; the first comes before whatever
happens below the call, and the second after all of it. -/
theorem brackets (hjoins : ∀ op, Joins (D.code op))
    (hcode : ∀ op, ∃ n p, D.code op = .record n p ∧ p.Closes .unsent) (c : CallId) :
    ((s.eventsOf c).filter fun e => e.act.isRecord).length ≤ 2 ∧
      ∀ e' ∈ s.history, e'.call.request = c.request → c.depth < e'.call.depth →
        (∀ e, ((s.eventsOf c).filter fun e => e.act.isRecord)[0]? = some e → e.seq < e'.seq) ∧
        ∀ e, ((s.eventsOf c).filter fun e => e.act.isRecord)[1]? = some e → e'.seq < e.seq := by
  have hsorted := eventsOf_ordered hreach c
  have hmem : ∀ e ∈ s.eventsOf c, e ∈ s.history ∧ e.call = c := fun e => mem_eventsOf.mp
  have htrail : s.trail c = (s.eventsOf c).map Event.act := rfl
  generalize hevents : s.eventsOf c = events at hsorted hmem htrail
  cases events with
  | nil => exact ⟨Nat.zero_le _, fun e' _ _ _ => ⟨nofun, nofun⟩⟩
  | cons e₀ es =>
    obtain ⟨hfirst, hes⟩ := List.pairwise_cons.mp hsorted
    obtain ⟨call, hcall, -⟩ := known_reaches hreach e₀ (hmem e₀ List.mem_cons_self).1
    rw [(hmem e₀ List.mem_cons_self).2] at hcall
    have hupto := upto_of_call hreach hcall
    obtain ⟨n, p, hprog, hcloses⟩ := hcode call.op
    rw [hprog, htrail, List.map_cons] at hupto
    obtain ⟨t, ht, hupto'⟩ : ∃ t, e₀.act :: es.map Event.act = .record n :: t ∧ Upto p t := by
      rcases upto_record.mp hupto with h | h
      · cases h
      · exact h
    obtain ⟨hact₀, rfl⟩ := List.cons.inj ht
    have hadmits := hcloses.admits hupto'
    have hrecord₀ : e₀.act.isRecord = true := by rw [hact₀]; rfl
    have hfilter : (e₀ :: es).filter (fun e => e.act.isRecord) =
        e₀ :: es.filter fun e => e.act.isRecord := List.filter_cons_of_pos hrecord₀
    rw [hfilter]
    refine ⟨?_, fun e' he' hrequest hdepth => ⟨fun e he => ?_, fun e he => ?_⟩⟩
    · have hcount := hadmits.countP_le
      rw [List.countP_map, List.countP_eq_length_filter] at hcount
      exact Nat.succ_le_succ hcount
    · obtain rfl := Option.some.inj he
      obtain ⟨f, hf, hfc, ⟨op, hact⟩, hlt⟩ := after_start hreach he' hrequest hdepth
      have hfmem : f ∈ e₀ :: es := hevents ▸ mem_eventsOf.mpr ⟨hf, hfc⟩
      rcases List.mem_cons.mp hfmem with rfl | hfmem
      · rw [hact₀] at hact
        cases hact
      · exact (hfirst f hfmem).trans hlt
    · have hmem' : e ∈ es ∧ e.act.isRecord = true := by
        rw [List.getElem?_cons_succ] at he
        exact List.mem_filter.mp (List.mem_of_getElem? he)
      obtain ⟨hes', hrecord⟩ := hmem'
      obtain ⟨pre, post, rfl⟩ := List.append_of_mem hes'
      obtain ⟨m, hm⟩ : ∃ m, e.act = .record m := by
        cases hact : e.act with
        | record m => exact ⟨m, rfl⟩
        | _ => rw [hact] at hrecord; cases hrecord
      have hsplit : (pre ++ e :: post).map Event.act =
          pre.map Event.act ++ .record m :: post.map Event.act := by
        rw [List.map_append, List.map_cons, hm]
      rcases hadmits.await_mem_or rfl hsplit with ⟨v, hv⟩ | hnone
      · obtain ⟨f, hf, hact⟩ := List.mem_map.mp hv
        obtain ⟨hfmem, hfc⟩ := hmem f (List.mem_cons_of_mem _ (List.mem_append_left _ hf))
        have hlt := (List.pairwise_append.mp hes).2.2 f hf e List.mem_cons_self
        exact (below_before_await hreach hjoins hfmem hact he' (by rw [hfc, hrequest])
          (by rw [hfc]; exact hdepth)).trans hlt
      · obtain ⟨f, hf, hfc, ⟨op, hact⟩, -⟩ := after_start hreach he' hrequest hdepth
        have hfmem : f ∈ e₀ :: (pre ++ e :: post) := hevents ▸ mem_eventsOf.mpr ⟨hf, hfc⟩
        rcases List.mem_cons.mp hfmem with rfl | hfmem
        · rw [hact₀] at hact
          cases hact
        · exact absurd (List.mem_map.mpr ⟨f, hfmem, hact⟩) (hnone op)

end Reachable

end Rpc
