import WastForge.Diagnostic.Bag
import WastForge.Proofs.Text.Decimal
import Mathlib.Data.List.Nodup

/-!
# Repeated diagnostics

Of the diagnostics with one key, the first one is kept. The key is a text in which code, member,
place and message stand behind each other, divided by bars that member and message may hold
themselves. So what is kept is the first diagnostic of every subject, unless some of a message can
be taken for the end of a longer member and a place.
-/

namespace WastForge

/-! ## Texts with bars between them -/

namespace Bytes

/-- Texts without a separator are told apart by where the first separator stands. -/
theorem append_sep_inj {sep : UInt8} {a b s t : Bytes} (ha : sep ∉ a) (hb : sep ∉ b)
    (h : a ++ sep :: s = b ++ sep :: t) : a = b ∧ s = t := by
  have hcut : ∀ {c u : Bytes}, sep ∉ c → (c ++ sep :: u).takeWhile (· != sep) = c := by
    intro c u hc
    rw [List.takeWhile_append_of_pos fun x hx => bne_iff_ne.mpr (ne_of_mem_of_not_mem hx hc)]
    simp
  have heq : a = b := by rw [← hcut ha, h, hcut hb]
  subst heq
  exact ⟨rfl, (List.cons.inj (List.append_cancel_left h)).2⟩

end Bytes

namespace Span

theorem text_eq (s : Span) : s.text = Bytes.ofNat s.file.toNat ++
    58 :: (Bytes.ofNat s.line.toNat ++ 58 :: Bytes.ofNat s.col.toNat) := by
  have hcolon : (":" : Bytes) = [58] := by decide
  simp [text, hcolon]

/-- Different places have different texts. -/
theorem text_injective {s t : Span} (h : s.text = t.text) : s = t := by
  have hcolon : ∀ n, 58 ∉ Bytes.ofNat n := Bytes.not_mem_ofNat rfl
  rw [text_eq, text_eq] at h
  obtain ⟨hfile, h⟩ := Bytes.append_sep_inj (hcolon _) (hcolon _) h
  obtain ⟨hline, hcol⟩ := Bytes.append_sep_inj (hcolon _) (hcolon _) h
  cases s
  cases t
  congr
  · exact UInt32.toNat_inj.mp (Bytes.ofNat_injective hfile)
  · exact UInt32.toNat_inj.mp (Bytes.ofNat_injective hline)
  · exact UInt32.toNat_inj.mp (Bytes.ofNat_injective hcol)

theorem bar_not_mem_text (s : Span) : 124 ∉ s.text := by
  have hbar : ∀ n, 124 ∉ Bytes.ofNat n := Bytes.not_mem_ofNat rfl
  simp [text_eq, hbar]

end Span

namespace Bag

/-! ## When two diagnostics have one key -/

/-- What a diagnostic is about: its code, its member, its place and its message. -/
def subject (d : Diagnostic) : Code × Bytes × Span × Bytes := (d.code, d.member, d.span, d.message)

/-- The member of `e` begins like that of `d`, goes on with a bar and the place of `d`, and its
end, with the place and the message of `e` behind it, is the message of `d`. -/
def Blends (d e : Diagnostic) : Prop :=
  ∃ x : Bytes, e.member ++ "|" = d.member ++ "|" ++ d.span.text ++ "|" ++ x ∧
    d.message = x ++ e.span.text ++ "|" ++ e.message

theorem bar_eq : ("|" : Bytes) = [124] := by decide

theorem key_eq (d : Diagnostic) : key d = Bytes.ofNat d.code.number.toNat ++
    124 :: ((d.member ++ [124]) ++ (d.span.text ++ 124 :: d.message)) := by
  simp [key, bar_eq]

/-- Two ways to read one text as a member, a place and a message, when the member of the first is
not the longer one. -/
theorem subject_or_blends {d e : Diagnostic} {x : Bytes} (hcode : d.code = e.code)
    (hmember : e.member ++ [124] = (d.member ++ [124]) ++ x)
    (hrest : d.span.text ++ 124 :: d.message = x ++ (e.span.text ++ 124 :: e.message)) :
    subject d = subject e ∨ Blends d e := by
  by_cases hx : x = []
  · subst hx
    rw [List.append_nil] at hmember
    obtain ⟨hspan, hmessage⟩ :=
      Bytes.append_sep_inj d.span.bar_not_mem_text e.span.bar_not_mem_text hrest
    rw [subject, subject, hcode, List.append_cancel_right hmember, Span.text_injective hspan,
      hmessage]
    exact .inl rfl
  · -- the stretch ends in the bar behind the member of `e`, so it reaches past the place of `d`
    have hbar : 124 ∈ x := by
      have hlast := congrArg List.getLast? hmember
      rw [List.getLast?_append_of_ne_nil _ hx, List.getLast?_concat] at hlast
      exact List.mem_of_getLast? hlast.symm
    rcases List.append_eq_append_iff.mp hrest with ⟨y, hplace, hmessage⟩ | ⟨y, hplace, -⟩
    · cases y with
      | nil =>
        rw [List.append_nil] at hplace
        exact absurd (hplace ▸ hbar) d.span.bar_not_mem_text
      | cons b y =>
        obtain ⟨rfl, htext⟩ := List.cons_eq_cons.mp (hmessage.trans (List.cons_append ..))
        exact .inr ⟨y, by simp [bar_eq, hmember, hplace], by simp [bar_eq, htext]⟩
    · exact absurd (hplace ▸ List.mem_append_left y hbar) d.span.bar_not_mem_text

theorem key_eq_of_blends {d e : Diagnostic} (hcode : d.code = e.code) (h : Blends d e) :
    key d = key e := by
  obtain ⟨x, hmember, hmessage⟩ := h
  rw [bar_eq] at hmember hmessage
  rw [key_eq, key_eq, hcode, hmember, hmessage]
  simp

/-- Two keys are the same for one subject, and for members and messages of one code that blend. -/
theorem key_eq_iff (d e : Diagnostic) :
    key d = key e ↔ subject d = subject e ∨ (d.code = e.code ∧ (Blends d e ∨ Blends e d)) := by
  have hbar : ∀ n, 124 ∉ Bytes.ofNat n := Bytes.not_mem_ofNat rfl
  constructor
  · intro h
    rw [key_eq, key_eq] at h
    obtain ⟨hnumber, hrest⟩ := Bytes.append_sep_inj (hbar _) (hbar _) h
    have hcode : d.code = e.code :=
      congrArg Code.mk (UInt16.toNat_inj.mp (Bytes.ofNat_injective hnumber))
    rcases List.append_eq_append_iff.mp hrest with ⟨x, hmember, hrest⟩ | ⟨x, hmember, hrest⟩
    · exact (subject_or_blends hcode hmember hrest).imp_right fun h => ⟨hcode, .inl h⟩
    · exact (subject_or_blends hcode.symm hmember hrest).imp Eq.symm fun h => ⟨hcode, .inr h⟩
  · rintro (h | ⟨hcode, h | h⟩)
    · simp only [subject, Prod.mk.injEq] at h
      rw [key_eq, key_eq, h.1, h.2.1, h.2.2.1, h.2.2.2]
    · exact key_eq_of_blends hcode h
    · exact (key_eq_of_blends hcode.symm h).symm

/-- Diagnostics that blend have different subjects: the member of one is longer. -/
theorem not_blends_of_subject_eq {d e : Diagnostic} (h : subject d = subject e) : ¬Blends d e := by
  rintro ⟨x, hmember, -⟩
  simp only [subject, Prod.mk.injEq] at h
  have hlength := congrArg List.length hmember
  simp [bar_eq, h.2.1] at hlength

/-! ## The first of every class -/

section Firsts

variable {κ : Type} [DecidableEq κ] {f : Diagnostic → κ} {d : Diagnostic} {l : List Diagnostic}

/-- Of the diagnostics with one value of `f`, the one that comes first; the others go. -/
def firstsBy (f : Diagnostic → κ) : List Diagnostic → List Diagnostic
  | [] => []
  | d :: rest => d :: (firstsBy f rest).filter fun e => f e ≠ f d

theorem firstsBy_sublist (f : Diagnostic → κ) (l : List Diagnostic) : (firstsBy f l).Sublist l := by
  induction l with
  | nil => exact .slnil
  | cons d rest ih => exact (List.filter_sublist.trans ih).cons_cons d

/-- For every value that occurs, a diagnostic that has it is kept. -/
theorem exists_mem_firstsBy (h : d ∈ l) : ∃ e ∈ firstsBy f l, f e = f d := by
  induction l with
  | nil => exact absurd h List.not_mem_nil
  | cons c rest ih =>
    by_cases hc : f c = f d
    · exact ⟨c, List.mem_cons_self, hc⟩
    · obtain ⟨e, he, hf⟩ := ih ((List.mem_cons.mp h).resolve_left fun h => hc (h ▸ rfl))
      refine ⟨e, List.mem_cons_of_mem c (List.mem_filter.mpr ⟨he, ?_⟩), hf⟩
      simpa [hf] using Ne.symm hc

theorem nodup_firstsBy (f : Diagnostic → κ) (l : List Diagnostic) :
    ((firstsBy f l).map f).Nodup := by
  induction l with
  | nil => exact .nil
  | cons d rest ih =>
    refine List.nodup_cons.mpr ⟨fun h => ?_, ih.sublist (List.filter_sublist.map f)⟩
    obtain ⟨e, he, hf⟩ := List.mem_map.mp h
    simpa [hf] using (List.mem_filter.mp he).2

theorem firstsBy_of_nodup (h : (l.map f).Nodup) : firstsBy f l = l := by
  induction l with
  | nil => rfl
  | cons d rest ih =>
    obtain ⟨hd, hrest⟩ := List.nodup_cons.mp h
    rw [firstsBy, ih hrest, List.filter_eq_self.mpr]
    intro e he
    have hne : f e ≠ f d := fun heq => hd (heq ▸ List.mem_map_of_mem he)
    simpa using hne

/-- What was kept is kept again. -/
theorem firstsBy_firstsBy (f : Diagnostic → κ) (l : List Diagnostic) :
    firstsBy f (firstsBy f l) = firstsBy f l :=
  firstsBy_of_nodup (nodup_firstsBy f l)

/-- Values that are equal for the same diagnostics keep the same ones. -/
theorem firstsBy_congr {κ' : Type} [DecidableEq κ'] {g : Diagnostic → κ'}
    (h : ∀ d ∈ l, ∀ e ∈ l, f d = f e ↔ g d = g e) : firstsBy f l = firstsBy g l := by
  induction l with
  | nil => rfl
  | cons d rest ih =>
    rw [firstsBy, firstsBy, ih fun c hc e he =>
      h c (List.mem_cons_of_mem d hc) e (List.mem_cons_of_mem d he)]
    congr 1
    refine List.filter_congr fun e he => ?_
    have hrest := (firstsBy_sublist g rest).subset he
    simp only [ne_eq, decide_not, h e (List.mem_cons_of_mem d hrest) d List.mem_cons_self]

end Firsts

/-! ## What is kept of a bag -/

/-- Keys that were seen before keep their diagnostics out, and nothing else does. -/
theorem firstOfKey_eq (seen : List Bytes) (l : List Diagnostic) :
    firstOfKey seen l = (firstsBy key l).filter fun d => key d ∉ seen := by
  induction l generalizing seen with
  | nil => rfl
  | cons d rest ih =>
    by_cases hd : key d ∈ seen
    · rw [firstOfKey, if_pos (List.contains_iff_mem.mpr hd), ih, firstsBy, List.filter_cons_of_neg
        (by simpa using hd), List.filter_filter]
      refine List.filter_congr fun e _ => ?_
      by_cases he : key e = key d <;> simp [he, hd]
    · rw [firstOfKey, if_neg (by simpa using hd), ih, firstsBy, List.filter_cons_of_pos
        (by simpa using hd), List.filter_filter]
      congr 1
      refine List.filter_congr fun e _ => ?_
      simp [Bool.and_comm]

theorem items_dedup (b : Bag) : b.dedup.items = firstsBy key b.items := by
  simp [dedup, firstOfKey_eq]

/-- A bag keeps the first diagnostic of every key, in the old order, and dropping repeated ones
again changes nothing. The first diagnostic of every subject is what is kept exactly when no two
diagnostics of the bag with one code blend. -/
theorem dedup_keeps_firsts_iff (b : Bag) :
    b.dedup.dedup = b.dedup ∧ b.dedup.items = firstsBy key b.items ∧
      (b.dedup.items = firstsBy subject b.items ↔
        ∀ d ∈ b.items, ∀ e ∈ b.items, d.code = e.code → ¬Blends d e) := by
  refine ⟨?_, items_dedup b, ?_⟩
  · have hitems : b.dedup.dedup.items = b.dedup.items := by
      rw [items_dedup b.dedup, items_dedup b, firstsBy_firstsBy]
    exact congrArg (fun l => { b with items := l : Bag }) hitems
  rw [items_dedup]
  constructor
  · intro heq d hd e he hcode hblends
    -- both subjects are kept, with one key
    obtain ⟨d', hd', hsd⟩ := exists_mem_firstsBy (f := subject) hd
    obtain ⟨e', he', hse⟩ := exists_mem_firstsBy (f := subject) he
    rw [← heq] at hd' he'
    have hkey : key d' = key e' :=
      ((key_eq_iff d' d).mpr (.inl hsd)).trans
        ((key_eq_of_blends hcode hblends).trans ((key_eq_iff e e').mpr (.inl hse.symm)))
    have hsame := List.inj_on_of_nodup_map (nodup_firstsBy key b.items) hd' he' hkey
    exact not_blends_of_subject_eq (hsd.symm.trans ((congrArg subject hsame).trans hse)) hblends
  · intro h
    refine firstsBy_congr fun d hd e he => ?_
    rw [key_eq_iff]
    refine ⟨fun hkey => hkey.resolve_right ?_, .inl⟩
    rintro ⟨hcode, hblends | hblends⟩
    · exact h d hd e he hcode hblends
    · exact h e he d hd hcode.symm hblends

/-- Two diagnostics of different members, places and messages, and one key: the second one is lost
although nothing is repeated. -/
theorem dedup_lost :
    let d : Diagnostic :=
      { severity := .warning, code := ⟨4002⟩, member := "A", span := ⟨1, 1, 1⟩,
        message := "x|2:3:4|y" }
    let e : Diagnostic :=
      { severity := .warning, code := ⟨4002⟩, member := "A|1:1:1|x", span := ⟨2, 3, 4⟩,
        message := "y" }
    let b : Bag := { items := [d, e] }
    subject d ≠ subject e ∧ firstsBy subject b.items = [d, e] ∧ b.dedup.items = [d] := by
  decide +kernel

end Bag

end WastForge
