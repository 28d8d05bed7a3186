import WastForge.Number.Radix

/-!
# Decimal numbers

Numbers are written in base ten and read in the base that the text chooses. Reading gives back what
was written, so different numbers have different texts.
-/

namespace WastForge.Bytes

theorem ofChar_digitChar (d : Nat) (h : d < 10) : ofChar d.digitChar = digit d := by
  unfold ofChar digit
  rw [Nat.toNat_digitChar_of_lt_ten h, if_pos h]

/-- The last digit comes off the end. -/
theorem ofNat_eq (n : Nat) :
    ofNat n = (if n < 10 then [] else ofNat (n / 10)) ++ [digit (n % 10)] := by
  unfold ofNat
  rw [Nat.toDigits_eq_if (by omega)]
  split
  · rename_i h
    simp [ofChar_digitChar n h, Nat.mod_eq_of_lt h]
  · simp [ofChar_digitChar (n % 10) (Nat.mod_lt _ (by omega))]

theorem ofNat_ne_nil (n : Nat) : ofNat n ≠ [] := by
  rw [ofNat_eq]
  simp

theorem toNat_digit (d : Nat) (h : d < 10) : (digit d).toNat = 48 + d := by
  unfold digit
  rw [if_pos h, UInt8.toNat_ofNat']
  omega

theorem isDigit_iff (b : UInt8) : isDigit b ↔ 48 ≤ b.toNat ∧ b.toNat ≤ 57 := by
  simp [isDigit, UInt8.le_iff_toNat_le]

theorem isDigit_of_mem_ofNat {b : UInt8} {n : Nat} (h : b ∈ ofNat n) : isDigit b := by
  induction n using Nat.strongRecOn with
  | _ n ih =>
    rw [ofNat_eq] at h
    rcases List.mem_append.mp h with h | h
    · split at h
      · simp at h
      · exact ih (n / 10) (by omega) h
    · rw [List.mem_singleton.mp h, isDigit_iff, toNat_digit _ (Nat.mod_lt _ (by omega))]
      omega

theorem not_mem_ofNat {b : UInt8} (h : isDigit b = false) (n : Nat) : b ∉ ofNat n := by
  intro hb
  rw [isDigit_of_mem_ofNat hb] at h
  cases h

/-- Only zero is written with a leading zero. -/
theorem head?_ofNat {n : Nat} (h : 0 < n) : ∃ b rest, ofNat n = b :: rest ∧ b ≠ 48 := by
  induction n using Nat.strongRecOn with
  | _ n ih =>
    rw [ofNat_eq]
    split
    · refine ⟨_, [], rfl, ?_⟩
      intro heq
      have := congrArg UInt8.toNat heq
      rw [toNat_digit _ (Nat.mod_lt _ (by omega))] at this
      simp at this
      omega
    · obtain ⟨b, rest, hb, hne⟩ := ih (n / 10) (by omega) (by omega)
      exact ⟨b, rest ++ [digit (n % 10)], by rw [hb]; rfl, hne⟩

end WastForge.Bytes

namespace WastForge.Radix

open Bytes

theorem digitValue?_digit (d : Nat) (h : d < 10) :
    digitValue? (digit d) = some d := by
  have hd := (isDigit_iff (digit d)).mpr (by rw [toNat_digit d h]; omega)
  unfold digitValue?
  unfold isDigit at hd
  rw [if_pos hd, toNat_digit d h]
  simp

theorem digits?_append (base : Nat) (marks : Bool) (s t : Bytes) (acc : Nat) :
    digits? base marks acc (s ++ t) =
      (digits? base marks acc s).bind fun n => digits? base marks n t := by
  induction s generalizing acc with
  | nil => rfl
  | cons b s ih =>
    simp only [List.cons_append, digits?]
    split
    · exact ih acc
    · split
      · rfl
      · split
        · exact ih _
        · rfl

theorem digits?_digit (marks : Bool) (acc d : Nat) (h : d < 10) :
    digits? 10 marks acc [digit d] = some (acc * 10 + d) := by
  have hne : (digit d == 95) = false := by
    rw [beq_eq_false_iff_ne]
    intro heq
    have := congrArg UInt8.toNat heq
    rw [toNat_digit d h] at this
    simp at this
    omega
  simp [digits?, hne, digitValue?_digit d h, h]

/-- Reading the digits of a number in base ten gives it back. -/
theorem digits?_ofNat (marks : Bool) (n : Nat) : digits? 10 marks 0 (ofNat n) = some n := by
  induction n using Nat.strongRecOn with
  | _ n ih =>
    have hlast := Nat.mod_lt n (show 0 < 10 by omega)
    rw [ofNat_eq, digits?_append]
    split
    · rename_i h
      show digits? 10 marks 0 [digit (n % 10)] = some n
      rw [digits?_digit marks 0 _ hlast, Nat.mod_eq_of_lt h]
      simp
    · rw [ih (n / 10) (by omega)]
      simp only [Option.bind_some, digits?_digit marks (n / 10) _ hlast]
      congr 1
      omega

theorem chosenBase_of_head {b : UInt8} {rest : Bytes} (h : b ≠ 48) :
    chosenBase (b :: rest) = (10, b :: rest) := by
  unfold chosenBase
  split
  · rename_i heq
    exact absurd (List.cons.inj heq).1 h
  · rename_i heq
    exact absurd (List.cons.inj heq).1 h
  · rfl

theorem contains_underscore_ofNat (n : Nat) : (ofNat n).contains 95 = false := by
  rw [Bool.eq_false_iff]
  intro h
  have := isDigit_of_mem_ofNat (List.contains_iff_mem.mp h)
  simp [isDigit] at this

/-- A natural number is read back from its decimal text, whose base is never mistaken. -/
theorem nat?_ofNat {limit n : Nat} (h : n ≤ limit) : nat? limit (ofNat n) = some n := by
  rcases Nat.eq_zero_or_pos n with rfl | hpos
  · have h0 : ofNat 0 = [48] := by decide
    simp [h0, nat?, chosenBase, digits?]
  · obtain ⟨b, rest, hn, hb⟩ := head?_ofNat hpos
    have hread := digits?_ofNat true n
    have hmark := contains_underscore_ofNat n
    rw [hn] at hread hmark ⊢
    simp only [nat?, List.isEmpty_cons, Bool.false_eq_true, if_false, chosenBase_of_head hb, hread,
      hmark, Bool.not_false, Bool.true_or, Bool.and_true, decide_eq_true h, if_true]

theorem head_ofNat_ne {n : Nat} {b : UInt8} {rest : Bytes} (h : ofNat n = b :: rest) :
    (b == 45) = false ∧ (b == 43) = false := by
  have hd : isDigit b := isDigit_of_mem_ofNat (n := n) (by rw [h]; simp)
  rw [isDigit_iff] at hd
  constructor <;> rw [beq_eq_false_iff_ne] <;> rintro rfl <;> simp at hd

/-- A 64-bit integer is read back from its decimal text. -/
theorem int64?_ofInt {n : Int} (hlo : -0x8000000000000000 ≤ n) (hhi : n < 0x8000000000000000) :
    int64? (ofInt n) = some n := by
  cases n with
  | ofNat k =>
    have hk : k ≤ maxWord := by
      simp only [Int.ofNat_eq_natCast] at hhi
      unfold maxWord
      omega
    have hread := nat?_ofNat hk
    show signed? (nat? maxWord) (ofNat k) = some (Int.ofNat k)
    cases hs : ofNat k with
    | nil => exact absurd hs (ofNat_ne_nil k)
    | cons b rest =>
      rw [hs] at hread
      obtain ⟨hminus, hplus⟩ := head_ofNat_ne hs
      simp only [Int.ofNat_eq_natCast] at hhi
      simp [signed?, hminus, hplus, hread]
      omega
  | negSucc k =>
    have hk : k + 1 ≤ maxWord := by
      unfold maxWord
      omega
    show signed? (nat? maxWord) (45 :: ofNat (k + 1)) = some (Int.negSucc k)
    simp only [signed?, beq_self_eq_true, if_true, nat?_ofNat hk, Option.bind_some]
    rw [if_pos (by omega)]
    congr 1

end WastForge.Radix

namespace WastForge.Bytes

theorem ofNat_injective {a b : Nat} (h : ofNat a = ofNat b) : a = b := by
  have ha := Radix.digits?_ofNat false a
  rw [h, Radix.digits?_ofNat false b] at ha
  exact (Option.some.inj ha).symm

theorem ofInt_injective {a b : Int} (h : ofInt a = ofInt b) : a = b := by
  -- a minus sign is no digit, so the sign of the number shows in its first byte
  have hsign : ∀ k l : Nat, ofNat k ≠ 45 :: ofNat l := by
    intro k l heq
    exact absurd (Radix.head_ofNat_ne heq).1 (by decide)
  cases a with
  | ofNat k =>
    cases b with
    | ofNat l => rw [ofNat_injective h]
    | negSucc l => exact absurd h (hsign k (l + 1))
  | negSucc k =>
    cases b with
    | ofNat l => exact absurd h.symm (hsign l (k + 1))
    | negSucc l =>
      have := ofNat_injective (List.cons.inj h).2
      rw [Nat.succ.inj this]

end WastForge.Bytes
