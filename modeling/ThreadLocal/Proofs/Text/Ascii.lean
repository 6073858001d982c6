import ThreadLocal.Text.Lines
import ThreadLocal.Text.Utf8

/-!
ASCII texts: one byte for each character, read back as they were.
-/

namespace ThreadLocal

def IsAscii (c : Char) : Prop :=
  c.toNat < 128

instance (c : Char) : Decidable (IsAscii c) :=
  inferInstanceAs (Decidable (_ < _))

namespace Utf8

theorem encodeChar_of_ascii {c : Char} (h : IsAscii c) : String.utf8EncodeChar c = [c.val.toUInt8] := by
  apply String.utf8EncodeChar_eq_singleton
  rw [Char.utf8Size_eq_one_iff]
  exact Nat.le_of_lt_succ h

theorem lead_of_ascii {c : Char} (h : IsAscii c) : lead c.val.toUInt8 = some ⟨0, 0, 0, c.toNat⟩ := by
  have hn : c.val.toUInt8.toNat = c.toNat := by
    have hc : c.val.toNat < 128 := h
    simp only [UInt32.toNat_toUInt8, Char.toNat]
    omega
  have hlt : c.val.toUInt8 < 0x80 := by
    rw [UInt8.lt_iff_toNat_lt, hn]
    exact h
  rw [lead, if_pos hlt, hn]

theorem decodeFrom_encode {cs : List Char} (h : ∀ c ∈ cs, IsAscii c) (start : Nat) :
    decodeFrom start (encode cs) = .ok cs := by
  induction cs generalizing start with
  | nil => simp [encode, decodeFrom]
  | cons c rest ih =>
    have hc := h c List.mem_cons_self
    have hrest := ih (fun d hd => h d (List.mem_cons_of_mem _ hd)) (start + 1)
    have hbytes : encode (c :: rest) = c.val.toUInt8 :: encode rest := by
      simp [encode, encodeChar_of_ascii hc]
    rw [hbytes, decodeFrom, lead_of_ascii hc]
    simp only [continued, List.drop_zero, Nat.add_zero, hrest, Char.ofNat_toNat]

theorem decode_encode_of_ascii {cs : List Char} (h : ∀ c ∈ cs, IsAscii c) : decode (encode cs) = .ok cs :=
  decodeFrom_encode h 0

end Utf8

theorem Bytes.text?_ofText {s : String} (h : ∀ c ∈ s.toList, IsAscii c) : (Bytes.ofText s).text? = .ok s := by
  rw [text?, ofText, Utf8.decode_encode_of_ascii h, Except.map, String.ofList_toList]

theorem unifyLineEnds_of_notMem {cs : List Char} (h : '\r' ∉ cs) : unifyLineEnds cs = cs := by
  induction cs with
  | nil => rfl
  | cons c rest ih =>
    rw [List.mem_cons, not_or] at h
    have hc : c ≠ '\r' := Ne.symm h.1
    rw [unifyLineEnds]
    · rw [ih h.2]
    all_goals simp_all

end ThreadLocal
