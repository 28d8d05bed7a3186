import WastForge.Text.Utf8

/-!
# Texts in Latin-1

Reading a text as UTF-8 loses nothing: its units, written down again, are the text. So a text that
has a form in Latin-1 is read back from it.
-/

namespace WastForge

namespace Utf8

theorem toNat_tail {b : UInt8} (h : isTail b) : 0x80 ≤ b.toNat ∧ b.toNat ≤ 0xBF := by
  rw [isTail, Bool.and_eq_true, decide_eq_true_eq, decide_eq_true_eq] at h
  exact h

/-- What may follow a leading byte continues a sequence; less is allowed after the least leading
bytes of three and four bytes. -/
theorem toNat_second {b c : UInt8} (h : second b c) :
    0x80 ≤ c.toNat ∧ c.toNat ≤ 0xBF ∧ (b.toNat = 0xE0 → 0xA0 ≤ c.toNat)
      ∧ (b.toNat = 0xF0 → 0x90 ≤ c.toNat) := by
  have hall : ∀ k : Fin 256, 0x80 ≤ (secondRange (UInt8.ofNat k)).1.toNat
      ∧ (secondRange (UInt8.ofNat k)).2.toNat ≤ 0xBF
      ∧ (k.val = 0xE0 → 0xA0 ≤ (secondRange (UInt8.ofNat k)).1.toNat)
      ∧ (k.val = 0xF0 → 0x90 ≤ (secondRange (UInt8.ofNat k)).1.toNat) := by
    decide +kernel
  obtain ⟨hlo, hhi, hthree, hfour⟩ := hall ⟨b.toNat, b.toNat_lt⟩
  rw [UInt8.ofNat_toNat] at hlo hhi hthree hfour
  rw [second, Bool.and_eq_true, decide_eq_true_eq, decide_eq_true_eq, UInt8.le_iff_toNat_le,
    UInt8.le_iff_toNat_le] at h
  exact ⟨Nat.le_trans hlo h.1, Nat.le_trans h.2 hhi, fun hb => Nat.le_trans (hthree hb) h.1,
    fun hb => Nat.le_trans (hfour hb) h.1⟩

theorem ofNat_eq {b : UInt8} {n : Nat} (h : n = b.toNat) : UInt8.ofNat n = b := by
  rw [h, UInt8.ofNat_toNat]

theorem encode_one {b : UInt8} (hb : b.toNat < 0x80) : encode b.toNat = [b] := by
  rw [encode, if_pos hb, ofNat_eq rfl]

theorem encode_two {b c : UInt8} (hb : 0xC2 ≤ b.toNat ∧ b.toNat ≤ 0xDF)
    (hc : 0x80 ≤ c.toNat ∧ c.toNat ≤ 0xBF) :
    encode (b.toNat % 32 * 64 + payload c) = [b, c] := by
  have hlead : b.toNat % 32 = b.toNat - 0xC0 := by omega
  have hlow : payload c = c.toNat - 0x80 := by unfold payload; omega
  rw [hlead, hlow, encode, if_neg (by omega), if_pos (by omega), ofNat_eq (b := b) (by omega),
    ofNat_eq (b := c) (by omega)]

theorem encode_three {b c d : UInt8} (hb : 0xE0 ≤ b.toNat ∧ b.toNat ≤ 0xEF)
    (hc : 0x80 ≤ c.toNat ∧ c.toNat ≤ 0xBF) (hleast : b.toNat = 0xE0 → 0xA0 ≤ c.toNat)
    (hd : 0x80 ≤ d.toNat ∧ d.toNat ≤ 0xBF) :
    encode (b.toNat % 16 * 4096 + payload c * 64 + payload d) = [b, c, d] := by
  have hlead : b.toNat % 16 = b.toNat - 0xE0 := by omega
  have hmid : payload c = c.toNat - 0x80 := by unfold payload; omega
  have hlow : payload d = d.toNat - 0x80 := by unfold payload; omega
  rw [hlead, hmid, hlow, encode, if_neg (by omega), if_neg (by omega), if_pos (by omega),
    ofNat_eq (b := b) (by omega), ofNat_eq (b := c) (by omega), ofNat_eq (b := d) (by omega)]

theorem encode_four {b c d e : UInt8} (hb : 0xF0 ≤ b.toNat ∧ b.toNat ≤ 0xF4)
    (hc : 0x80 ≤ c.toNat ∧ c.toNat ≤ 0xBF) (hleast : b.toNat = 0xF0 → 0x90 ≤ c.toNat)
    (hd : 0x80 ≤ d.toNat ∧ d.toNat ≤ 0xBF) (he : 0x80 ≤ e.toNat ∧ e.toNat ≤ 0xBF) :
    encode (b.toNat % 8 * 262144 + payload c * 4096 + payload d * 64 + payload e)
      = [b, c, d, e] := by
  have hlead : b.toNat % 8 = b.toNat - 0xF0 := by omega
  have hhigh : payload c = c.toNat - 0x80 := by unfold payload; omega
  have hmid : payload d = d.toNat - 0x80 := by unfold payload; omega
  have hlow : payload e = e.toNat - 0x80 := by unfold payload; omega
  rw [hlead, hhigh, hmid, hlow, encode, if_neg (by omega), if_neg (by omega), if_neg (by omega),
    ofNat_eq (b := b) (by omega), ofNat_eq (b := c) (by omega), ofNat_eq (b := d) (by omega),
    ofNat_eq (b := e) (by omega)]

/-- A unit, written down again, is what it was read from. -/
theorem bytesOf_unit (b : UInt8) (rest : Bytes) :
    bytesOf (unit b rest).1 = b :: rest.take (unit b rest).2 := by
  have hrange : ∀ {lo hi : UInt8}, (decide (lo ≤ b) && decide (b ≤ hi)) = true →
      lo.toNat ≤ b.toNat ∧ b.toNat ≤ hi.toNat := by
    intro lo hi h
    rwa [Bool.and_eq_true, decide_eq_true_eq, decide_eq_true_eq] at h
  unfold unit
  split
  · rename_i h
    exact encode_one h
  split
  · rename_i h
    split
    · split
      · rename_i hsecond
        obtain ⟨hlo, hhi, _⟩ := toNat_second hsecond
        exact encode_two (hrange h) ⟨hlo, hhi⟩
      · rfl
    · rfl
  split
  · rename_i h
    split
    · split
      · rename_i htails
        rw [Bool.and_eq_true] at htails
        obtain ⟨hlo, hhi, hleast, _⟩ := toNat_second htails.1
        exact encode_three (hrange h) ⟨hlo, hhi⟩ hleast (toNat_tail htails.2)
      · rfl
    · rfl
  split
  · rename_i h
    split
    · split
      · rename_i htails
        rw [Bool.and_eq_true, Bool.and_eq_true] at htails
        obtain ⟨hlo, hhi, _, hleast⟩ := toNat_second htails.1.1
        exact encode_four (hrange h) ⟨hlo, hhi⟩ hleast (toNat_tail htails.1.2) (toNat_tail htails.2)
      · rfl
    · rfl
  · rfl

theorem flatMap_runesFrom (skip : Nat) (s : Bytes) :
    (runesFrom skip s).flatMap bytesOf = s.drop skip := by
  induction s generalizing skip with
  | nil => simp [runesFrom]
  | cons b rest ih =>
    cases skip with
    | zero =>
      rw [runesFrom, List.flatMap_cons, bytesOf_unit, ih, List.cons_append, List.take_append_drop]
      rfl
    | succ skip =>
      rw [runesFrom, ih]
      rfl

/-- Reading a text loses nothing. -/
theorem flatMap_runes (s : Bytes) : (runes s).flatMap bytesOf = s := flatMap_runesFrom 0 s

end Utf8

namespace Latin1

/-- The characters of a text with a form in Latin-1 are its bytes there. -/
theorem runes_of_encode? {s chars : Bytes} (h : encode? s = some chars) :
    Utf8.runes s = chars.map fun b => .point b.toNat := by
  unfold encode? at h
  generalize Utf8.runes s = l at h
  induction l generalizing chars with
  | nil =>
    obtain rfl : [] = chars := by simpa using h
    rfl
  | cons r l ih =>
    rw [List.mapM_cons] at h
    obtain ⟨b, hb, h⟩ := Option.bind_eq_some_iff.mp h
    obtain ⟨rest, hrest, h⟩ := Option.bind_eq_some_iff.mp h
    obtain rfl := Option.some.inj h
    cases r with
    | stray => cases hb
    | point c =>
      have hlt : c < 256 ∧ UInt8.ofNat c = b := by simpa using hb
      have hc : b.toNat = c := by
        rw [← hlt.2, UInt8.toNat_ofNat']
        omega
      rw [List.map_cons, hc, ih hrest]

/-- A text is read back from its form in Latin-1. -/
theorem decode_of_encode? {s chars : Bytes} (h : encode? s = some chars) : decode chars = s := by
  rw [← Utf8.flatMap_runes s, runes_of_encode? h, List.flatMap_map]
  rfl

end Latin1

end WastForge
