import WastForge.Emit.Instruction
import WastForge.Emit.Name
import WastForge.Proofs.Text.Decimal
import WastForge.Proofs.Text.Reading

/-!
# Words that are written

Numbers in base ten, floating point numbers, and the names of functions, locals and labels are
words.
-/

namespace WastForge

namespace Token

/-- Bytes that may stand anywhere in a word. -/
def isWordByte (b : UInt8) : Bool := !endsWord b && b != 59

theorem isWord_of_all {w : Bytes} (hne : w ≠ []) (h : ∀ b ∈ w, isWordByte b) : isWord w := by
  have hall : w.all (fun b => !endsWord b) := by
    rw [List.all_eq_true]
    intro b hb
    have hb := h b hb
    rw [isWordByte, Bool.and_eq_true] at hb
    exact hb.1
  have hstart : ([59, 59] : Bytes).isPrefixOf w = false := by
    cases w with
    | nil => rfl
    | cons b w =>
      have hb := h b (by simp)
      rw [isWordByte, Bool.and_eq_true, bne_iff_ne] at hb
      simp [List.isPrefixOf, hb.2.symm]
  rw [isWord, hall, hstart]
  simp [hne]

theorem isWordByte_of_isDigit {b : UInt8} (h : Bytes.isDigit b) : isWordByte b := by
  have hall : ∀ k : Fin 256, Bytes.isDigit (UInt8.ofNat k) = true →
      isWordByte (UInt8.ofNat k) = true := by
    decide +kernel
  have hb : UInt8.ofNat b.toNat = b := UInt8.ofNat_toNat
  rw [← hb] at h ⊢
  exact hall ⟨b.toNat, b.toNat_lt⟩ h

theorem isWordByte_ofNat {n : Nat} {b : UInt8} (hb : b ∈ Bytes.ofNat n) : isWordByte b :=
  isWordByte_of_isDigit (Bytes.isDigit_of_mem_ofNat hb)

theorem isWordByte_ofInt {n : Int} {b : UInt8} (hb : b ∈ Bytes.ofInt n) : isWordByte b := by
  cases n with
  | ofNat k => exact isWordByte_ofNat hb
  | negSucc k =>
    rcases List.mem_cons.mp hb with rfl | hb
    · rfl
    · exact isWordByte_ofNat hb

theorem isWord_ofInt (n : Int) : isWord (Bytes.ofInt n) := by
  refine isWord_of_all ?_ fun b hb => isWordByte_ofInt hb
  cases n with
  | ofNat k => exact Bytes.ofNat_ne_nil k
  | negSucc k => exact List.cons_ne_nil _ _

end Token

namespace Name

/-- A name holds letters, digits and underscores. -/
theorem isWordByte_escape {s : Bytes} {b : UInt8} (hb : b ∈ escape s) : Token.isWordByte b := by
  have hplain : ∀ k : Fin 123, isPlain k = true →
      Token.isWordByte (UInt8.ofNat k) = true := by
    decide +kernel
  rw [escape, List.mem_map] at hb
  obtain ⟨r, -, rfl⟩ := hb
  cases r with
  | stray c => rfl
  | point c =>
    simp only
    split
    · rename_i hc
      have hlt : c < 123 := by
        simp only [isPlain, Bool.or_eq_true, Bool.and_eq_true, decide_eq_true_eq,
          beq_iff_eq] at hc
        omega
      exact hplain ⟨c, hlt⟩ hc
    · rfl

theorem isWord_local (name : Bytes) : Token.isWord (local_ name) := by
  have hdollar : ∀ b ∈ ("$" : Bytes), Token.isWordByte b :=
    List.all_eq_true.mp (by decide)
  refine Token.isWord_of_all (List.cons_ne_nil _ _) fun b hb => ?_
  rcases List.mem_append.mp hb with hb | hb
  · exact hdollar b hb
  · exact isWordByte_escape hb

end Name

namespace Decimal

theorem all_dropZeros {ds : Bytes} (h : ds.all Token.isWordByte) :
    (dropZeros ds).all Token.isWordByte := by
  rw [List.all_eq_true] at h ⊢
  intro b hb
  have hmem := (List.dropWhile_sublist _).mem (List.mem_reverse.mp hb)
  exact h b (List.mem_reverse.mp hmem)

theorem all_ofGrid (c : Nat) (e : Int) : (ofGrid c e).digits.all Token.isWordByte :=
  all_dropZeros (List.all_eq_true.mpr fun _ hb => Token.isWordByte_ofNat hb)

/-- The digits of a number may stand in a word. -/
theorem all_shortest (f : BinaryFormat) (m : Nat) (q : Int) :
    (shortest f m q).digits.all Token.isWordByte := by
  rw [shortest]
  by_cases hm : (m == 0) = true
  · rw [if_pos hm]
    rfl
  · rw [if_neg hm]
    exact all_ofGrid _ _

theorem all_zeros (n : Nat) : (List.replicate n (48 : UInt8)).all Token.isWordByte := by
  rw [List.all_eq_true]
  intro b hb
  rw [(List.mem_replicate.mp hb).2]
  decide

theorem all_padded {ds : Bytes} (h : ds.all Token.isWordByte) (n : Nat) :
    (padded ds n).all Token.isWordByte := by
  rw [padded, List.all_append, h, all_zeros]
  rfl

theorem padded_ne_nil (ds : Bytes) {n : Nat} (hn : n ≠ 0) : padded ds n ≠ [] := by
  intro hnil
  have hlen : (padded ds n).length = 0 := by rw [hnil, List.length_nil]
  rw [padded, List.length_append, List.length_replicate] at hlen
  omega

theorem all_take {ds : Bytes} (h : ds.all Token.isWordByte) (n : Nat) :
    (ds.take n).all Token.isWordByte := by
  rw [List.all_eq_true] at h ⊢
  exact fun b hb => h b (List.mem_of_mem_take hb)

theorem all_drop {ds : Bytes} (h : ds.all Token.isWordByte) (n : Nat) :
    (ds.drop n).all Token.isWordByte := by
  rw [List.all_eq_true] at h ⊢
  exact fun b hb => h b (List.mem_of_mem_drop hb)

theorem positional_ne_nil (d : Decimal) : d.positional ≠ [] := by
  have hwhole : (if d.point ≤ 0 then ("0" : Bytes)
      else padded (d.digits.take d.point.toNat) d.point.toNat) ≠ [] := by
    split
    · decide
    · exact padded_ne_nil _ (by omega)
  unfold positional
  simp only
  split
  · exact hwhole
  · simp only [ne_eq, List.append_eq_nil_iff, not_and]
    exact fun hnil => absurd hnil.1.1 hwhole

theorem scientific_ne_nil (d : Decimal) : d.scientific ≠ [] := by
  unfold scientific
  simp only [ne_eq, List.append_eq_nil_iff, not_and]
  exact fun hnil => absurd hnil.1.1.1 (padded_ne_nil _ (by decide))

theorem general_ne_nil (d : Decimal) : d.general ≠ [] := by
  unfold general
  simp only
  split
  · exact d.scientific_ne_nil
  · exact d.positional_ne_nil

variable {d : Decimal} (h : d.digits.all Token.isWordByte)

include h

theorem all_positional : d.positional.all Token.isWordByte := by
  have hwhole : (if d.point ≤ 0 then ("0" : Bytes)
      else padded (d.digits.take d.point.toNat) d.point.toNat).all Token.isWordByte := by
    split
    · decide
    · exact all_padded (all_take h _) _
  have hdot : (".": Bytes).all Token.isWordByte := by decide
  unfold positional
  simp only
  split
  · exact hwhole
  · rw [List.all_append, List.all_append, List.all_append, hwhole, hdot, all_zeros, all_drop h]
    rfl

theorem all_scientific : d.scientific.all Token.isWordByte := by
  have hlead := all_padded (all_take h 1) 1
  have hmark : ("e" : Bytes).all Token.isWordByte := by decide
  have hdot : ("." : Bytes).all Token.isWordByte := by decide
  have hfraction : (if d.digits.length ≤ 1 then ([] : Bytes)
      else "." ++ d.digits.drop 1).all Token.isWordByte := by
    split
    · rfl
    · rw [List.all_append, hdot, all_drop h]
      rfl
  have hsign : ∀ e : Int, (if e < 0 then ("-" : Bytes) else "+").all Token.isWordByte := by
    intro e
    split <;> decide
  have hexponent : ∀ n : Nat, (Bytes.padLeft 2 48 (Bytes.ofNat n)).all Token.isWordByte := by
    intro n
    rw [Bytes.padLeft, List.all_append, all_zeros, Bool.true_and, List.all_eq_true]
    exact fun b hb => Token.isWordByte_ofNat hb
  unfold scientific
  simp only
  rw [List.all_append, List.all_append, List.all_append, List.all_append, hlead, hfraction, hmark,
    hsign, hexponent]
  rfl

theorem all_general : d.general.all Token.isWordByte := by
  unfold general
  simp only
  split
  · exact all_scientific h
  · exact all_positional h

end Decimal

/-- A number is a word in a style whose other texts are words. -/
theorem FloatStyle.isWord_write {style : FloatStyle} (hnan : Token.isWord style.nan)
    (hinfinity : Token.isWord style.infinity) (hnegative : Token.isWord style.negativeInfinity)
    (hgeneral : ∀ m q, style.positional m q = false) (f : BinaryFormat) (bits : Nat) :
    Token.isWord (style.write f bits) := by
  unfold FloatStyle.write
  split
  · exact hnan
  · split
    · exact hnegative
    · exact hinfinity
  · rename_i negative m q _
    have hall := Decimal.all_general (Decimal.all_shortest f m q)
    have hne := (Decimal.shortest f m q).general_ne_nil
    have hminus : Token.isWordByte 45 := by decide
    simp only [hgeneral, Bool.false_eq_true, if_false]
    split
    · refine Token.isWord_of_all (List.cons_ne_nil _ _) (List.all_eq_true.mp ?_)
      rw [List.all_cons, hminus, hall]
      rfl
    · exact Token.isWord_of_all hne (List.all_eq_true.mp hall)

theorem Instruction.isWord_floatText (kw : Keyword) (bits : Nat) :
    Token.isWord (floatText kw bits) := by
  have hconstant : Token.isWord (FloatStyle.constant.write .double bits) :=
    FloatStyle.isWord_write (by decide) (by decide) (by decide) (fun _ _ => rfl) _ _
  have hmessage : ∀ b, Token.isWord (FloatStyle.message.write .single b) :=
    FloatStyle.isWord_write (by decide) (by decide) (by decide) (fun _ _ => rfl) _
  unfold floatText
  split
  · split
    · exact hmessage _
    · split <;> decide
  · exact hconstant

end WastForge
