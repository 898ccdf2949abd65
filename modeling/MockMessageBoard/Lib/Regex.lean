import Mathlib.Data.List.Basic
import Mathlib.Tactic

/-!
# Regular expressions with assertions

The fragment of ECMAScript regular expressions without groups, alternatives
and back references, as `std::regex` reads it by default: `.` matches every
character but the line terminators, `^` and `$` hold only at the two ends of
the subject, and an iteration of `*` must consume something.

`Matches r pre mid post` is the meaning: `r` can match `mid` where `pre` stands
before it and `post` after it. `regexMatch` decides whether the whole subject
matches (`std::regex_match`), by collecting what can be left over after a
match; `regexMatch_iff` is its correctness. `parse` reads a pattern.
-/

namespace Regex

/-- A text is a sequence of characters. -/
abbrev Text := List Char

/-- The characters `.` does not match. -/
def isLineTerminator (c : Char) : Bool := c = '\n' || c = '\r'

/-- The syntax of patterns. -/
inductive Pattern where
  | empty
  | bol
  | eol
  | any
  | cls (negated : Bool) (members : List Char)
  | star (r : Pattern)
  | seq (r r' : Pattern)
  deriving DecidableEq, Repr

/-- A class matches the characters it lists, a negated one the others. -/
def inClass (negated : Bool) (members : List Char) (c : Char) : Bool :=
  members.contains c != negated

/-- `r` can match `mid` between `pre` and `post`. -/
inductive Matches : Pattern → Text → Text → Text → Prop
  | empty {pre post} : Matches .empty pre [] post
  | bol {post} : Matches .bol [] [] post
  | eol {pre} : Matches .eol pre [] []
  | any {pre post c} (h : isLineTerminator c = false) : Matches .any pre [c] post
  | cls {pre post negated members c} (h : inClass negated members c = true) :
      Matches (.cls negated members) pre [c] post
  | starNil {r pre post} : Matches (.star r) pre [] post
  | starCons {r pre m m' post} (hne : m ≠ []) (h : Matches r pre m (m' ++ post))
      (h' : Matches (.star r) (pre ++ m) m' post) : Matches (.star r) pre (m ++ m') post
  | seq {r r' pre m m' post} (h : Matches r pre m (m' ++ post))
      (h' : Matches r' (pre ++ m) m' post) : Matches (.seq r r') pre (m ++ m') post

-- ---------------------------------------------------------------------------
-- The matcher
-- ---------------------------------------------------------------------------

/-- The texts that any number of iterations of a matcher `f` can leave over,
each iteration consuming something. -/
def starRemainders (f : Bool → Text → List Text) : Nat → Bool → Text → List Text
  | 0, _, s => [s]
  | n + 1, atStart, s =>
    s :: ((f atStart s).filter fun t => t.length < s.length).flatMap (starRemainders f n false)

/-- The texts `r` can leave over of `s`; `atStart` says that nothing stands
before `s`. -/
def remainders : Pattern → Bool → Text → List Text
  | .empty, _, s => [s]
  | .bol, atStart, s => if atStart then [s] else []
  | .eol, _, s => if s = [] then [s] else []
  | .any, _, s =>
    match s with
    | [] => []
    | c :: t => if isLineTerminator c then [] else [t]
  | .cls negated members, _, s =>
    match s with
    | [] => []
    | c :: t => if inClass negated members c then [t] else []
  | .star r, atStart, s => starRemainders (remainders r) s.length atStart s
  | .seq r r', atStart, s =>
    (remainders r atStart s).flatMap fun t => remainders r' (atStart && t.length == s.length) t

/-- `std::regex_match(s, r)`: the whole of `s` matches. -/
def regexMatch (r : Pattern) (s : Text) : Bool := (remainders r true s).contains []

-- ---------------------------------------------------------------------------
-- Reading a match off its pattern
-- ---------------------------------------------------------------------------

variable {pre mid post : Text}

@[simp] theorem matches_empty : Matches .empty pre mid post ↔ mid = [] := by
  constructor
  · rintro ⟨⟩
    rfl
  · rintro rfl
    exact .empty

@[simp] theorem matches_bol : Matches .bol pre mid post ↔ pre = [] ∧ mid = [] := by
  constructor
  · rintro ⟨⟩
    exact ⟨rfl, rfl⟩
  · rintro ⟨rfl, rfl⟩
    exact .bol

@[simp] theorem matches_eol : Matches .eol pre mid post ↔ mid = [] ∧ post = [] := by
  constructor
  · rintro ⟨⟩
    exact ⟨rfl, rfl⟩
  · rintro ⟨rfl, rfl⟩
    exact .eol

@[simp] theorem matches_any :
    Matches .any pre mid post ↔ ∃ c, mid = [c] ∧ isLineTerminator c = false := by
  constructor
  · rintro ⟨⟩
    exact ⟨_, rfl, by assumption⟩
  · rintro ⟨c, rfl, h⟩
    exact .any h

@[simp] theorem matches_cls {negated : Bool} {members : List Char} :
    Matches (.cls negated members) pre mid post ↔
      ∃ c, mid = [c] ∧ inClass negated members c = true := by
  constructor
  · rintro ⟨⟩
    exact ⟨_, rfl, by assumption⟩
  · rintro ⟨c, rfl, h⟩
    exact .cls h

@[simp] theorem matches_seq {r r' : Pattern} :
    Matches (.seq r r') pre mid post ↔
      ∃ m m', mid = m ++ m' ∧ Matches r pre m (m' ++ post) ∧ Matches r' (pre ++ m) m' post := by
  constructor
  · rintro (_ | _ | _ | _ | _ | _ | _ | ⟨h, h'⟩)
    exact ⟨_, _, rfl, h, h'⟩
  · rintro ⟨m, m', rfl, h, h'⟩
    exact .seq h h'

theorem matches_star {r : Pattern} :
    Matches (.star r) pre mid post ↔
      mid = [] ∨ ∃ m m', mid = m ++ m' ∧ m ≠ [] ∧ Matches r pre m (m' ++ post) ∧
        Matches (.star r) (pre ++ m) m' post := by
  constructor
  · rintro (_ | _ | _ | _ | _ | _ | ⟨hne, h, h'⟩)
    · exact .inl rfl
    · exact .inr ⟨_, _, rfl, hne, h, h'⟩
  · rintro (rfl | ⟨m, m', rfl, hne, h, h'⟩)
    · exact .starNil
    · exact .starCons hne h h'

/-- `.*` matches the texts without line terminators. -/
theorem matches_star_any :
    Matches (.star .any) pre mid post ↔ ∀ c ∈ mid, isLineTerminator c = false := by
  induction mid generalizing pre with
  | nil => exact ⟨fun _ _ hc => absurd hc List.not_mem_nil, fun _ => .starNil⟩
  | cons c mid ih =>
    rw [matches_star]
    constructor
    · rintro (hnil | ⟨m, m', heq, -, hany, hstar⟩)
      · cases hnil
      · obtain ⟨d, rfl, hd⟩ := matches_any.mp hany
        obtain ⟨rfl, rfl⟩ := List.cons.inj heq
        intro x hx
        rcases List.mem_cons.mp hx with rfl | hx
        · exact hd
        · exact ih.mp hstar x hx
    · intro hall
      refine .inr ⟨[c], mid, rfl, by simp, ?_, ?_⟩
      · exact matches_any.mpr ⟨c, rfl, hall c (List.mem_cons_self ..)⟩
      · exact ih.mpr fun x hx => hall x (List.mem_cons_of_mem _ hx)

-- ---------------------------------------------------------------------------
-- Correctness of the matcher
-- ---------------------------------------------------------------------------

/-- What it means for `f` to compute the remainders of `r`. -/
def Computes (f : Bool → Text → List Text) (r : Pattern) : Prop :=
  ∀ pre s t, t ∈ f pre.isEmpty s ↔ ∃ mid, s = mid ++ t ∧ Matches r pre mid t

theorem starRemainders_computes {f : Bool → Text → List Text} {r : Pattern}
    (hf : Computes f r) {n : Nat} {s : Text} (hn : s.length ≤ n) (pre t : Text) :
    t ∈ starRemainders f n pre.isEmpty s ↔
      ∃ mid, s = mid ++ t ∧ Matches (.star r) pre mid t := by
  induction n generalizing pre s with
  | zero =>
    obtain rfl : s = [] := List.length_eq_zero_iff.mp (by omega)
    constructor
    · intro ht
      obtain rfl : t = [] := by simpa [starRemainders] using ht
      exact ⟨[], rfl, .starNil⟩
    · rintro ⟨mid, heq, -⟩
      obtain ⟨-, rfl⟩ := List.nil_eq_append_iff.mp heq
      simp [starRemainders]
  | succ n ih =>
    have hfalse : ∀ m : Text, m ≠ [] → false = (pre ++ m).isEmpty := by
      intro m hm
      cases m with
      | nil => exact absurd rfl hm
      | cons => simp
    rw [starRemainders, List.mem_cons, List.mem_flatMap]
    constructor
    · rintro (rfl | ⟨u, hu, ht⟩)
      · exact ⟨[], rfl, .starNil⟩
      · obtain ⟨hfu, hlt⟩ := List.mem_filter.mp hu
        have hlt : u.length < s.length := by simpa using hlt
        obtain ⟨m, rfl, hm⟩ := (hf pre s u).mp hfu
        have hne : m ≠ [] := by
          rintro rfl
          simp at hlt
        rw [hfalse m hne] at ht
        obtain ⟨m', rfl, hm'⟩ := (ih (by omega) (pre ++ m)).mp ht
        exact ⟨m ++ m', by simp, .starCons hne hm hm'⟩
    · rintro ⟨mid, rfl, hmid⟩
      rcases matches_star.mp hmid with rfl | ⟨m, m', rfl, hne, hm, hm'⟩
      · exact .inl rfl
      · have hpos := List.length_pos_iff.mpr hne
        refine .inr ⟨m' ++ t, List.mem_filter.mpr ⟨?_, ?_⟩, ?_⟩
        · exact (hf pre _ _).mpr ⟨m, by simp, hm⟩
        · simp
          omega
        · rw [hfalse m hne]
          refine (ih ?_ (pre ++ m)).mpr ⟨m', rfl, hm'⟩
          simp at hn ⊢
          omega

/-- Patterns of one character. -/
theorem single_computes {f : Bool → Text → List Text} {r : Pattern} {P : Char → Bool}
    (hnil : ∀ b, f b [] = []) (hcons : ∀ b c s, f b (c :: s) = if P c then [s] else [])
    (hr : ∀ {pre mid post}, Matches r pre mid post ↔ ∃ c, mid = [c] ∧ P c = true) :
    Computes f r := by
  intro pre s t
  constructor
  · intro ht
    cases s with
    | nil =>
      rw [hnil] at ht
      cases ht
    | cons c s =>
      rw [hcons] at ht
      split at ht
      · rename_i hc
        obtain rfl := List.mem_singleton.mp ht
        exact ⟨[c], rfl, hr.mpr ⟨c, rfl, hc⟩⟩
      · cases ht
  · rintro ⟨mid, rfl, hmid⟩
    obtain ⟨c, rfl, hc⟩ := hr.mp hmid
    rw [List.cons_append, hcons, if_pos hc]
    exact List.mem_singleton_self t

/-- **The matcher collects exactly what a match can leave over.** -/
theorem remainders_computes (r : Pattern) : Computes (remainders r) r := by
  induction r with
  | empty =>
    intro pre s t
    simp [remainders, eq_comm]
  | bol =>
    intro pre s t
    cases pre <;> simp [remainders, eq_comm]
  | eol =>
    intro pre s t
    by_cases hs : s = []
    · simp [remainders, hs]
    · constructor
      · simp [remainders, hs]
      · rintro ⟨mid, rfl, hmid⟩
        obtain ⟨rfl, rfl⟩ := matches_eol.mp hmid
        exact absurd rfl hs
  | any =>
    refine single_computes (P := fun c => !isLineTerminator c) (fun _ => rfl) ?_ ?_
    · intro b c s
      simp only [remainders]
      cases isLineTerminator c <;> rfl
    · intro pre mid t
      simp
  | cls negated members =>
    exact single_computes (P := inClass negated members) (fun _ => rfl) (fun _ _ _ => rfl)
      matches_cls
  | star r ih => exact fun pre s t => starRemainders_computes ih le_rfl pre t
  | seq r r' ih ih' =>
    intro pre s t
    have hflag : ∀ m u : Text, (pre.isEmpty && u.length == (m ++ u).length) =
        (pre ++ m).isEmpty := by
      intro m u
      cases pre <;> cases m <;> simp
      omega
    rw [remainders, List.mem_flatMap]
    constructor
    · rintro ⟨u, hu, ht⟩
      obtain ⟨m, rfl, hm⟩ := (ih pre s u).mp hu
      rw [hflag] at ht
      obtain ⟨m', rfl, hm'⟩ := (ih' (pre ++ m) u t).mp ht
      exact ⟨m ++ m', by simp, .seq hm hm'⟩
    · rintro ⟨mid, rfl, hmid⟩
      obtain ⟨m, m', rfl, hm, hm'⟩ := matches_seq.mp hmid
      refine ⟨m' ++ t, (ih pre _ _).mpr ⟨m, by simp, hm⟩, ?_⟩
      rw [List.append_assoc, hflag]
      exact (ih' (pre ++ m) _ _).mpr ⟨m', rfl, hm'⟩

/-- **Correctness of `regexMatch`.** -/
theorem regexMatch_iff (r : Pattern) (s : Text) :
    regexMatch r s = true ↔ Matches r [] s [] := by
  rw [regexMatch, List.contains_iff_mem, show true = ([] : Text).isEmpty from rfl,
    remainders_computes r]
  simp

-- ---------------------------------------------------------------------------
-- Patterns as text
-- ---------------------------------------------------------------------------

/-- `\c` outside and inside a class: the escaped punctuation itself. Escapes
that stand for something else are outside the fragment. -/
def parseEscape (c : Char) : Option Char := if c.isAlphanum then none else some c

/-- The members of a class up to its `]`, and the rest of the pattern. -/
def parseClass : Text → Option (List Char × Text)
  | [] => none
  | '\\' :: c :: t => do
    let c ← parseEscape c
    let (members, rest) ← parseClass t
    some (c :: members, rest)
  | c :: t =>
    if c = ']' then some ([], t)
    else if c = '-' || c = '\\' then none
    else do
      let (members, rest) ← parseClass t
      some (c :: members, rest)

/-- One assertion or atom, whether `*` may follow it, and the rest. -/
def parseAtom : Text → Option (Pattern × Bool × Text)
  | [] => none
  | c :: t =>
    if c = '^' then some (.bol, false, t)
    else if c = '$' then some (.eol, false, t)
    else if c = '.' then some (.any, true, t)
    else if c = '[' then
      let negated := t.head? = some '^'
      (parseClass (if negated then t.tail else t)).map fun (members, rest) =>
        (.cls negated members, true, rest)
    else if c = '\\' then do
      let d ← t.head?
      let d ← parseEscape d
      some (.cls false [d], true, t.tail)
    else if ['*', '+', '?', '(', ')', '{', '}', '|', ']'].contains c then none
    else some (.cls false [c], true, t)

/-- A sequence of at most `n` terms. -/
def parseTerms : Nat → Text → Option Pattern
  | _, [] => some .empty
  | 0, _ :: _ => none
  | n + 1, t => do
    let (atom, quantifiable, rest) ← parseAtom t
    if rest.head? = some '*' then
      if quantifiable then
        let tail ← parseTerms n rest.tail
        some (.seq (.star atom) tail)
      else none
    else
      let tail ← parseTerms n rest
      some (.seq atom tail)

/-- The pattern a text denotes, if it lies in the fragment. -/
def parse (t : Text) : Option Pattern := parseTerms t.length t

end Regex
