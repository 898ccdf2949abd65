import MockMessageBoard.Lib.Stdio
import MockMessageBoard.QueryUid

/-!
# MockMessageBoard — exec

`exec` of `shared/Utils.cpp` runs a command and reads its output through a pipe, up to 127
characters of a line at a time. `generate_local_uid` takes the host's address from the
output of `hostname -i` that it returns.

* `exec_eq_iff`       — when `exec` returns what the command has written;
* `localUid_of_exec`  — the local uid is that of the address that was written.
-/

namespace MockMessageBoard

open TextFile

/-- `exec(cmd)`: `popen` returns no pipe, or one through which the output of the command is
read into an `array<char, 128>`. -/
def exec (popen : Option Text) : Except Text Text :=
  match popen with
  | none => .error "popen() failed!".toList
  | some pipe => .ok (drain 126 [] pipe)

/-- `generate_local_uid()` outside `LOCALHOST` builds, which does not catch what `exec` throws. -/
def localUid (popen : Option Text) (rand : UInt64) : Except Text UInt64 := do
  let sip ← exec popen
  return generateLocalUid (.hostname sip) rand

/--
**What `exec` returns.** The characters that the command has written, in their order and
without null characters; and all of them exactly when none is a null character, however
long its lines are.
-/
theorem exec_eq_iff (output : Text) :
    ∃ result, exec (some output) = .ok result ∧ result.Sublist output ∧ '\x00' ∉ result ∧
      (result = output ↔ '\x00' ∉ output) :=
  ⟨_, rfl, drain_sublist 126 output, null_notMem_drain 126 output, drain_eq_iff 126 output⟩

theorem length_text_le (q : IPv4) : q.text.length ≤ 15 := by
  have hoctet : ∀ x : UInt8, (decimal x.toNat).length ≤ 3 := by
    intro x
    have hlt := x.toNat_lt
    exact (Nat.length_toDigits_le_iff (by decide) (by decide)).mpr (by omega)
  have ha := hoctet q.a
  have hb := hoctet q.b
  have hc := hoctet q.c
  have hd := hoctet q.d
  simp only [IPv4.text, List.length_append, List.length_cons]
  omega

theorem mem_text {q : IPv4} {c : Char} (h : c ∈ q.text) : c.isDigit = true ∨ c = '.' := by
  simp only [IPv4.text, List.mem_append, List.mem_cons] at h
  rcases h with h | h | h | h | h | h | h
  · exact .inl (isDigit_of_mem_decimal h)
  · exact .inr h
  · exact .inl (isDigit_of_mem_decimal h)
  · exact .inr h
  · exact .inl (isDigit_of_mem_decimal h)
  · exact .inr h
  · exact .inl (isDigit_of_mem_decimal h)

theorem text_ne_nil (q : IPv4) : q.text ≠ [] :=
  List.append_ne_nil_of_left_ne_nil (decimal_ne_nil _) _

/--
**The local uid of a host.** If the output of `hostname -i` begins with the host's address
and goes on with neither a digit nor a null character, the host part of the local uid is
that of the address, whatever else the command writes: null characters further behind do
not reach the address.
-/
theorem localUid_of_exec (q : IPv4) {rest : Text}
    (hrest : ∀ c, rest.head? = some c → c.isDigit = false ∧ c ≠ '\x00') (rand : UInt64) :
    ∃ uid, localUid (some (q.text ++ rest)) rand = .ok uid ∧
      (uid >>> 32).toNat =
        q.a.toNat * 2 ^ 24 + q.a.toNat * 2 ^ 16 + q.a.toNat * 2 ^ 8 + q.d.toNat := by
  have hnot : ∀ c, c.isDigit = false → c ≠ '.' → c ∉ q.text := by
    intro c hdigit hdot hmem
    rcases mem_text hmem with h | h
    · cases hdigit.symm.trans h
    · exact hdot h
  obtain ⟨rest', hdrain, hhead⟩ := drain_front (n := 126) (text_ne_nil q)
    (hnot '\n' rfl (by decide)) (hnot '\x00' rfl (by decide))
    ((length_text_le q).trans (by decide)) fun h => (hrest _ h).2 rfl
  refine ⟨_, congrArg (Except.map fun sip => generateLocalUid (.hostname sip) rand)
    (congrArg Except.ok hdrain), ?_⟩
  exact localUid_upper ⟨rest', rfl, fun c hc => (hrest c (hhead ▸ hc)).1⟩ rand

theorem localUid_of_exec_ten :
    ∃ uid, localUid (some ((IPv4.mk 10 0 0 1).text ++ ['\n', '\x00', '7'])) 3 = .ok uid ∧
      (uid >>> 32).toNat = 10 * 2 ^ 24 + 10 * 2 ^ 16 + 10 * 2 ^ 8 + 1 := by
  refine localUid_of_exec ⟨10, 0, 0, 1⟩ (fun c hc => ?_) 3
  obtain rfl : '\n' = c := Option.some.inj hc
  exact ⟨rfl, by decide⟩

end MockMessageBoard
