import DeclBridge.Text.Utf8
import Mathlib.Data.List.TakeWhile

/-!
# Decoding what was encoded

`Text.encodeChar` is the UTF-8 encoding of the standard library, and decoding gives back every
sequence of characters that was encoded.  The range of the byte after the lead byte is what has to
be looked at: it is narrower after four of the lead bytes, and the bytes of a character lie in it
because a character is no surrogate, is not above the last code point, and has the shortest of its
encodings.
-/

namespace DeclBridge.Text

open List

theorem toNat_bounds (c : Char) : c.toNat < 0xD800 ∨ 0xDFFF < c.toNat ∧ c.toNat < 0x110000 :=
  c.valid

theorem encodeChar_eq (c : Char) : encodeChar c = String.utf8EncodeChar c := by
  have hvalid := toNat_bounds c
  have hn : c.val.toNat = c.toNat := rfl
  unfold encodeChar String.utf8EncodeChar
  rw [hn]
  generalize c.toNat = n at *
  simp only [Nat.toUInt8_eq, ← Nat.lt_add_one_iff, Nat.reduceAdd]
  split_ifs with h1 h2 h3
  · rfl
  · rw [show n / 64 % 32 + 192 = 0xC0 + n / 0x40 by omega, Nat.add_comm (n % 64)]
  · rw [show n / 4096 % 16 + 224 = 0xE0 + n / 0x1000 by omega, Nat.add_comm (n / 64 % 64),
      Nat.add_comm (n % 64)]
  · rw [show n / 262144 % 8 + 240 = 0xF0 + n / 0x40000 by omega, Nat.add_comm (n / 4096 % 64),
      Nat.add_comm (n / 64 % 64), Nat.add_comm (n % 64)]

/-- A reader that has items to skip reads what is behind them. -/
theorem skip_eq_drop {α β : Type} {read : Nat → List α → List β} (hnil : ∀ n, read n [] = [])
    (hcons : ∀ n a l, read (n + 1) (a :: l) = read n l) (n : Nat) (l : List α) :
    read n l = read 0 (l.drop n) := by
  induction n generalizing l with
  | zero => rfl
  | succ n ih =>
    cases l with
    | nil => rw [hnil, drop_nil, hnil]
    | cons a l => rw [hcons, ih, drop_succ_cons]

theorem decodeFrom_skip (n : Nat) (bytes : List UInt8) :
    decodeFrom n bytes = decodeFrom 0 (bytes.drop n) :=
  skip_eq_drop (fun _ => rfl) (fun _ _ _ => rfl) n bytes

/-- A lead byte with as many bytes in their ranges as it announces makes a character. -/
theorem sequence_of_tail {lead b : UInt8} {more : List UInt8} {n : Nat}
    (hlead : followers lead = more.length + 1) (hsecond : secondByte lead b = true)
    (hmore : ∀ b ∈ more, isContinuation b = true) (hvalue : sequenceValue lead (b :: more) = n)
    (rest : List UInt8) : sequence lead (b :: more ++ rest) = (Char.ofNat n, more.length + 1) := by
  have hascii : ¬ lead < 0x80 := by
    intro h
    have hnot : followers lead = 0 := by
      unfold followers
      simp only [UInt8.le_iff_toNat_le, UInt8.lt_iff_toNat_lt, UInt8.reduceToNat] at *
      grind
    omega
  have htail : tailBytes lead (b :: more ++ rest) = b :: more := by
    simp [tailBytes, hlead, hsecond, takeWhile_eq_self_iff.2 hmore]
  rw [sequence, if_neg hascii, htail]
  simp [hlead, hvalue]

theorem isContinuation_ofNat (m : Nat) : isContinuation (UInt8.ofNat (0x80 + m % 0x40)) = true := by
  simp only [isContinuation, Bool.and_eq_true, decide_eq_true_eq, UInt8.le_iff_toNat_le,
    UInt8.toNat_ofNat', UInt8.reduceToNat]
  omega

theorem sequence_encodeChar (c : Char) : ∃ lead tail, encodeChar c = lead :: tail ∧
      ∀ rest, sequence lead (tail ++ rest) = (c, tail.length) := by
  have hvalid := toNat_bounds c
  obtain ⟨n, hn, rfl⟩ : ∃ n, c.toNat = n ∧ c = Char.ofNat n := ⟨_, rfl, (Char.ofNat_toNat c).symm⟩
  rw [encodeChar, hn]
  rw [hn] at hvalid
  simp only [Nat.toUInt8_eq]
  split_ifs with h1 h2 h3
  · refine ⟨_, [], rfl, fun rest => ?_⟩
    have hlead : (UInt8.ofNat n).toNat = n := by
      rw [UInt8.toNat_ofNat']
      omega
    rw [sequence, if_pos (by rw [UInt8.lt_iff_toNat_lt, hlead]; exact h1), hlead]
    rfl
  all_goals
    refine ⟨_, _, rfl, sequence_of_tail ?_ ?_ ?_ ?_⟩
    · simp only [followers, Bool.and_eq_true, decide_eq_true_eq, UInt8.le_iff_toNat_le,
        UInt8.toNat_ofNat', UInt8.reduceToNat, length_cons, length_nil]
      split_ifs <;> omega
    · simp only [secondByte, isContinuation_ofNat, beq_iff_eq, ← UInt8.toNat_inj,
        UInt8.toNat_ofNat', UInt8.reduceToNat, UInt8.le_iff_toNat_le]
      split_ifs <;> first | rfl | omega | (simp only [Bool.and_eq_true, decide_eq_true_eq]; omega)
    · simp only [forall_mem_cons, isContinuation_ofNat, not_mem_nil, false_imp_iff,
        implies_true, and_self]
    · simp only [sequenceValue, length_cons, length_nil, foldl_cons, foldl_nil,
        UInt8.toNat_ofNat']
      omega

theorem decodeFrom_encodeChar (c : Char) (rest : List UInt8) :
    decodeFrom 0 (encodeChar c ++ rest) = c :: decodeFrom 0 rest := by
  obtain ⟨lead, tail, hencode, hsequence⟩ := sequence_encodeChar c
  rw [hencode, cons_append, decodeFrom]
  simp only [hsequence]
  rw [decodeFrom_skip, drop_left]

theorem decodeFrom_encodeChars (cs : List Char) : decodeFrom 0 (cs.flatMap encodeChar) = cs := by
  induction cs with
  | nil => rfl
  | cons c cs ih => rw [flatMap_cons, decodeFrom_encodeChar, ih]

end DeclBridge.Text
