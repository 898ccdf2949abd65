import MockMessageBoard.Board.Chains

/-!
# MockMessageBoard — what the database holds

`last_messages` holds, for each client id, what was last assigned to it: the
reads in between change nothing, since the `operator[]` of a read comes only
after a `find` that has found its key.

* `contents`           — the map a history of assignments leaves;
* `Coherent`, `coherent_reaches` — the database is the one its history leaves,
  and every read saw what the history before it leaves;
* `store_origin`       — every assignment serves a `send` whose message has passed
  the filter.
-/

namespace MockMessageBoard

open TextFile Rpc State Transition

/-- What one action assigns. -/
def assign (f : Text → Option Text) (e : Event sig) : Text → Option Text :=
  match e.act with
  | .access (.assign clientId message) _ => Function.update f clientId (some message)
  | _ => f

/-- The map that a history of actions leaves, from an empty one. -/
def contents (h : List (Event sig)) : Text → Option Text := h.foldl assign fun _ => none

/-- The action assigns to `last_messages`. -/
def isStore (e : Event sig) : Bool :=
  match e.act with
  | .access (.assign ..) _ => true
  | _ => false

theorem contents_snoc (h : List (Event sig)) (e : Event sig) :
    contents (h ++ [e]) = assign (contents h) e := by
  rw [contents, List.foldl_append]
  rfl

theorem assign_of_act {f : Text → Option Text} {e : Event sig} {clientId message : Text}
    {w : View} (hact : e.act = .access (.assign clientId message) w) :
    assign f e = Function.update f clientId (some message) := by
  simp only [assign, hact]

theorem assign_of_not_store {f : Text → Option Text} {e : Event sig} (he : isStore e = false) :
    assign f e = f := by
  obtain ⟨c, svc, seq, time, act⟩ := e
  cases act with
  | access a w =>
    cases a with
    | assign => cases he
    | _ => rfl
  | _ => rfl

/-- The action assigns to `last_messages` exactly if `isStore` says so. -/
theorem isStore_iff {e : Event sig} :
    isStore e = true ↔ ∃ clientId message w, e.act = .access (.assign clientId message) w := by
  constructor
  · intro he
    obtain ⟨c, svc, seq, time, act⟩ := e
    cases act with
    | access a w =>
      cases a with
      | assign clientId message => exact ⟨clientId, message, w, rfl⟩
      | _ => cases he
    | _ => cases he
  · rintro ⟨clientId, message, w, hact⟩
    simp only [isStore, hact]

/-- Assignments never remove a key. -/
theorem contents_append_isSome {h h' : List (Event sig)} {clientId : Text}
    (hfound : (contents h clientId).isSome = true) :
    (contents (h ++ h') clientId).isSome = true := by
  induction h' using List.reverseRecOn with
  | nil => rwa [List.append_nil]
  | append_singleton h' e ih =>
    rw [← List.append_assoc, contents_snoc]
    cases hstore : isStore e with
    | false => rwa [assign_of_not_store hstore]
    | true =>
      obtain ⟨c, m, w, hact⟩ := isStore_iff.mp hstore
      rw [assign_of_act hact]
      by_cases hc : clientId = c
      · subst hc
        rw [Function.update_self]
        rfl
      · rwa [Function.update_of_ne hc]

/-- Whatever the map holds was assigned. -/
theorem exists_store_of_contents {h : List (Event sig)} {clientId message : Text}
    (hm : contents h clientId = some message) :
    ∃ e ∈ h, ∃ w, e.act = .access (.assign clientId message) w := by
  induction h using List.reverseRecOn with
  | nil => cases hm
  | append_singleton h e ih =>
    have hold : contents h clientId = some message →
        ∃ e' ∈ h ++ [e], ∃ w, e'.act = .access (.assign clientId message) w := by
      intro hm
      obtain ⟨e', he', hact⟩ := ih hm
      exact ⟨e', List.mem_append_left _ he', hact⟩
    rw [contents_snoc] at hm
    cases hstore : isStore e with
    | false =>
      rw [assign_of_not_store hstore] at hm
      exact hold hm
    | true =>
      obtain ⟨c, m, w, hact⟩ := isStore_iff.mp hstore
      rw [assign_of_act hact] at hm
      by_cases hc : clientId = c
      · subst hc
        rw [Function.update_self] at hm
        cases hm
        exact ⟨e, List.mem_append_right _ (List.mem_singleton_self _), w, hact⟩
      · rw [Function.update_of_ne hc] at hm
        exact hold hm

/-- The map holds exactly the keys that something was assigned to. -/
theorem contents_isSome_iff {h : List (Event sig)} {clientId : Text} :
    (contents h clientId).isSome = true ↔
      ∃ e ∈ h, ∃ message w, e.act = .access (.assign clientId message) w := by
  constructor
  · intro hfound
    obtain ⟨message, hm⟩ := Option.isSome_iff_exists.mp hfound
    obtain ⟨e, he, w, hact⟩ := exists_store_of_contents hm
    exact ⟨e, he, message, w, hact⟩
  · rintro ⟨e, he, message, w, hact⟩
    obtain ⟨pre, post, rfl⟩ := List.append_of_mem he
    rw [List.append_cons]
    refine contents_append_isSome ?_
    rw [contents_snoc, assign_of_act hact, Function.update_self]
    rfl

/-- The database is the one its history leaves, and every read saw what the
history before it leaves. -/
structure Coherent (s : Board.State) : Prop where
  lastMessages : s.store.lastMessages = contents s.history
  contains : ∀ h e h', s.history = h ++ e :: h' → ∀ clientId w,
    e.act = .access (.contains clientId) w → w.found = (contents h clientId).isSome
  lookup : ∀ h e h', s.history = h ++ e :: h' → ∀ clientId w,
    e.act = .access (.lookup clientId) w → contents h clientId = some w.message

/-- A read of `last_messages[client_id]` follows a `find` that has found the key. -/
theorem contains_of_lookup {build : Build} {op : Request} {t : List (Act sig)} {clientId : Text}
    {w : View} (h : Upto (handler build op) t) (hmem : .access (.lookup clientId) w ∈ t) :
    ∃ w' : View, w'.found = true ∧ .access (.contains clientId) w' ∈ t := by
  have hallows := handler_only build op t h _ hmem
  cases op with
  | query => rcases hallows with hallows | hallows <;> cases hallows
  | storeMessage => cases hallows
  | findLastMessage | sendMessage | sanitizeMessage => cases hallows
  | mockFindLastMessage c uid =>
    obtain rfl : clientId = c := by
      rcases hallows with hallows | hallows <;> cases hallows
      rfl
    simp only [handler, MockDatabaseHandler.findLastMessage, upto_record, upto_sleep,
      upto_access] at h
    rcases h with rfl | ⟨_, rfl, rfl | rfl | ⟨w', t', rfl, h⟩⟩
    · cases hmem
    · simp at hmem
    · simp at hmem
    · cases hw' : w'.found with
      | true => exact ⟨w', hw', by simp⟩
      | false =>
        simp only [hw', Bool.false_eq_true, if_false, upto_record, upto_ret] at h
        rcases h with rfl | ⟨_, rfl, rfl | rfl⟩ <;> simp at hmem

/-- Only the last action of `h ++ [e]` is not in `h`. -/
theorem split_snoc {α : Type} {l h h' : List α} {x e : α} (heq : l ++ [x] = h ++ e :: h') :
    (h = l ∧ e = x) ∨ ∃ h'', l = h ++ e :: h'' := by
  rcases List.eq_nil_or_concat h' with rfl | ⟨h'', y, rfl⟩
  · obtain ⟨rfl, hx⟩ := List.append_inj' heq rfl
    exact .inl ⟨rfl, (List.cons.inj hx).1.symm⟩
  · rw [List.concat_eq_append, ← List.cons_append, ← List.append_assoc] at heq
    exact .inr ⟨h'', (List.append_inj' heq rfl).1⟩

section Reachable

variable {b : Board} {s : Board.State} (hreach : b.Reachable s)

include hreach

/-- A read finds its key, because the `find` before it did. -/
theorem exists_of_lookup {h : List (Event sig)} {e : Event sig} (hsplit : s.history = h ++ [e])
    (hfound : ∀ pre x post, h = pre ++ x :: post → ∀ clientId w,
      x.act = .access (.contains clientId) w → w.found = (contents pre clientId).isSome)
    (clientId : Text) (w : View) (hact : e.act = .access (.lookup clientId) w) :
    ∃ message, contents h clientId = some message := by
  have he : e ∈ s.history := hsplit ▸ List.mem_append_right _ (List.mem_singleton_self _)
  obtain ⟨call, hcall, -⟩ := known_reaches hreach e he
  have hlookup : .access (.lookup clientId) w ∈ s.trail e.call :=
    mem_trail.mpr ⟨e, he, rfl, hact⟩
  obtain ⟨w', hw', hcontains⟩ := contains_of_lookup (upto_of_call hreach hcall) hlookup
  obtain ⟨x, hx, -, hact'⟩ := mem_trail.mp hcontains
  rw [hsplit, List.mem_append, List.mem_singleton] at hx
  rcases hx with hx | rfl
  · obtain ⟨pre, post, rfl⟩ := List.append_of_mem hx
    have hsome := hfound pre x post rfl clientId w' hact'
    rw [hw'] at hsome
    exact Option.isSome_iff_exists.mp (contents_append_isSome hsome.symm)
  · cases hact.symm.trans hact'

theorem coherent_reaches : Coherent s := by
  refine hreach.invariant ?_ ?_
  · exact ⟨rfl, fun h e h' heq => by simp [Deployment.init] at heq,
      fun h e h' heq => by simp [Deployment.init] at heq⟩
  intro t l u ht ih hstep
  cases grows_of_step hstep with
  | same hhistory hstore =>
    exact ⟨by rw [hstore, hhistory]; exact ih.lastMessages,
      fun h e h' heq => ih.contains h e h' (hhistory ▸ heq),
      fun h e h' heq => ih.lookup h e h' (hhistory ▸ heq)⟩
  | @event c call tid p a x hcall hphase hnext hhistory hstart hawait haccess hstore =>
    have hfinds := exists_of_lookup (b := b) (s := u) (ht.tail hstep) hhistory ih.contains
    rw [← ih.lastMessages] at hfinds
    constructor
    · rw [hhistory, contents_snoc, ← ih.lastMessages]
      cases a with
      | record | start | await | finish => rw [hstore (by nofun)]; rfl
      | access b w =>
        have hexec := haccess b w rfl
        cases b with
        | contains | bumpFind | bumpSend | assign =>
          rw [← show _ = u.store from congrArg Prod.fst hexec]
          rfl
        | lookup clientId =>
          obtain ⟨message, hm⟩ := hfinds clientId w rfl
          simp only [Board.deployment, Access.exec, hm] at hexec
          rw [← show _ = u.store from congrArg Prod.fst hexec]
          rfl
    · intro h e h' heq clientId w hact
      rw [hhistory] at heq
      rcases split_snoc heq with ⟨rfl, rfl⟩ | ⟨h'', hsplit⟩
      · have hview := congrArg Prod.snd (haccess _ _ hact)
        rw [← ih.lastMessages]
        exact (congrArg View.found hview).symm
      · exact ih.contains h e h'' hsplit clientId w hact
    · intro h e h' heq clientId w hact
      rw [hhistory] at heq
      rcases split_snoc heq with ⟨rfl, rfl⟩ | ⟨h'', hsplit⟩
      · have hexec := haccess _ _ hact
        obtain ⟨message, hm⟩ := hfinds clientId w hact
        simp only [Board.deployment, Access.exec, hm] at hexec
        rw [← ih.lastMessages, hm]
        exact congrArg some (congrArg View.message (congrArg Prod.snd hexec))
      · exact ih.lookup h e h'' hsplit clientId w hact

/-- Every assignment serves a `send` whose message has passed the filter. -/
theorem store_origin {e : Event sig} {clientId message : Text} {w : View} (he : e ∈ s.history)
    (hact : e.act = .access (.assign clientId message) w) :
    ∃ uid, b.query? e.call.request = some (.send clientId message uid) ∧ e.call.depth = 3 ∧
      e.svc = .mockDatabase ∧ Regex.regexMatch matchExpr message = false := by
  obtain ⟨call, hcall, hsvc⟩ := known_reaches hreach e he
  have hallows := allows_of_mem hreach hcall (mem_trail.mpr ⟨e, he, rfl, hact⟩)
  obtain ⟨q, hq, hop⟩ := requestAt_of_call hreach hcall
  generalize call.op = op at hallows hop hsvc
  cases op with
  | query => rcases hallows with hallows | hallows <;> cases hallows
  | mockFindLastMessage => rcases hallows with hallows | hallows <;> cases hallows
  | findLastMessage | sendMessage | sanitizeMessage => cases hallows
  | storeMessage c m uid =>
    cases hallows
    cases q with
    | find => rcases requestAt_find hop with ⟨-, h⟩ | ⟨-, h⟩ | ⟨-, h⟩ <;> cases h
    | send c m uid' =>
      rcases requestAt_send hop with ⟨-, h⟩ | ⟨-, h⟩ | ⟨-, h⟩ | ⟨hdepth, hmatch, h⟩
      · cases h
      · cases h
      · cases h
      · cases h
        exact ⟨uid', hq, hdepth, hsvc, hmatch⟩

end Reachable

end MockMessageBoard
