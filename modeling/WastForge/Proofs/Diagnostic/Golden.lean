import Mathlib
import WastForge.Diagnostic.Golden
import WastForge.Proofs.Text.Decimal
import WastForge.Proofs.Text.Latin1
import WastForge.Proofs.Text.Path

/-!
# The listing of diagnostics

The listing is ordered by all that an entry has but its member, and only messages are brought on
one line. So the text of a listing depends on the order of the diagnostics where nothing but the
member tells two of them apart, and it has more lines than entries where a line breaks in a path or
in a member; otherwise it is the same for every order, with a line for each entry.
-/

namespace WastForge

/-! ## Line breaks -/

namespace Bytes

variable {sep : UInt8}

theorem not_mem_replaceFrom {new : Bytes} (h : sep ∉ new) (s : Bytes) :
    sep ∉ replaceFrom [sep] new 0 s := by
  induction s with
  | nil => exact List.not_mem_nil
  | cons b rest ih =>
    rw [replaceFrom]
    split
    · exact List.not_mem_append h ih
    · rename_i hb
      rw [List.mem_cons, not_or]
      exact ⟨fun heq => hb (by simp [heq]), ih⟩

/-- A byte that is replaced by others does not occur any more. -/
theorem not_mem_replace {new : Bytes} (h : sep ∉ new) (s : Bytes) : sep ∉ replace [sep] new s := by
  rw [replace]
  exact not_mem_replaceFrom h s

theorem length_splitOn (sep : UInt8) (s : Bytes) : (splitOn sep s).length = s.count sep + 1 := by
  induction s with
  | nil => rfl
  | cons b rest ih =>
    by_cases hb : b = sep
    · subst hb
      rw [splitOn_sep, List.length_cons, ih, List.count_cons_self]
    · rw [splitOn_cons hb, List.length_modifyHead, ih, List.count_cons_of_ne hb]

end Bytes

namespace Utf8

/-- Nothing comes into a text when it is trimmed. -/
theorem mem_of_mem_trim {s : Bytes} {b : UInt8} (h : b ∈ trim s) : b ∈ s := by
  obtain ⟨r, hr, hb⟩ := List.mem_flatMap.mp h
  rw [← flatMap_runes s]
  refine List.mem_flatMap.mpr ⟨r, ?_, hb⟩
  rw [List.mem_reverse] at hr
  exact (List.dropWhile_subset _) (List.mem_reverse.mp ((List.dropWhile_subset _) hr))

end Utf8

namespace Golden

/-! ## Entries -/

section Entries

variable (fs : FileSet) (cwd : Bytes) (notes : Bool)

/-- The entry of a diagnostic itself. -/
def own (d : Diagnostic) : Entry where
  severity := label d.severity
  code := d.code.id
  path := pathOf fs cwd d.span
  line := d.span.line
  col := d.span.col
  member := d.member
  message := oneLine d.message

/-- The entry of a note. -/
def remark (d : Diagnostic) (n : Note) : Entry where
  severity := "note"
  code := d.code.id
  path := pathOf fs cwd n.span
  line := n.span.line
  col := n.span.col
  member := []
  message := oneLine n.message

theorem entries_eq (d : Diagnostic) : entries fs cwd notes d =
    own fs cwd d :: if notes then d.notes.map (remark fs cwd d) else [] := rfl

/-- An entry is that of a diagnostic or of one of its notes. -/
theorem own_or_remark {ds : List Diagnostic} {a : Entry}
    (h : a ∈ ds.flatMap (entries fs cwd notes)) :
    ∃ d ∈ ds, a = own fs cwd d ∨ ∃ n, a = remark fs cwd d n := by
  obtain ⟨d, hd, ha⟩ := List.mem_flatMap.mp h
  refine ⟨d, hd, ?_⟩
  rw [entries_eq, List.mem_cons] at ha
  refine ha.imp_right fun ha => ?_
  split at ha
  · obtain ⟨n, -, rfl⟩ := List.mem_map.mp ha
    exact ⟨n, rfl⟩
  · exact absurd ha List.not_mem_nil

/-- The entries of diagnostics, one for each and, if wanted, one for each note. -/
def size (ds : List Diagnostic) : Nat :=
  ds.length + if notes then (ds.map fun d => d.notes.length).sum else 0

theorem length_entries (ds : List Diagnostic) :
    (ds.flatMap (entries fs cwd notes)).length = size notes ds := by
  induction ds with
  | nil => simp [size]
  | cons d rest ih =>
    rw [List.flatMap_cons, List.length_append, ih, entries_eq]
    cases notes <;> simp [size] <;> omega

theorem newline_eq : ("\n" : Bytes) = [10] := by decide

theorem newline_not_mem_oneLine (message : Bytes) : 10 ∉ oneLine message := by
  intro h
  have hreplaced := Utf8.mem_of_mem_trim h
  rw [newline_eq] at hreplaced
  exact Bytes.not_mem_replace (by decide : 10 ∉ (" " : Bytes)) _ hreplaced

theorem label_mem (s : Severity) : label s ∈ (["error", "warning", "info"] : List Bytes) := by
  unfold label
  split
  · simp
  · split <;> simp

theorem newline_not_mem_label (s : Severity) : 10 ∉ label s :=
  (by decide : ∀ t ∈ (["error", "warning", "info"] : List Bytes), 10 ∉ t) _ (label_mem s)

theorem newline_not_mem_id (c : Code) : 10 ∉ c.id := by
  have hdigits : ∀ n, 10 ∉ Bytes.ofNat n := Bytes.not_mem_ofNat rfl
  have hletters : ∀ n letters, Code.family? n = some letters → 10 ∉ letters := by
    intro n letters h
    unfold Code.family? at h
    split at h <;> first | (cases h; decide) | cases h
  rw [Code.id]
  split
  · rename_i letters h
    exact List.not_mem_append (hletters _ _ h) (hdigits _)
  · decide

/-- In the text of an entry, lines break only in its path and in its member. -/
theorem count_text {ds : List Diagnostic} {a : Entry}
    (h : a ∈ ds.flatMap (entries fs cwd notes)) :
    a.text.count 10 = a.path.count 10 + a.member.count 10 := by
  have hdigits : ∀ n, (Bytes.ofNat n).count 10 = 0 := fun n =>
    List.count_eq_zero.mpr (Bytes.not_mem_ofNat rfl n)
  have hmarks : (" " : Bytes).count 10 = 0 ∧ (":" : Bytes).count 10 = 0 := by decide
  have hwords : a.severity.count 10 = 0 ∧ a.code.count 10 = 0 ∧ a.message.count 10 = 0 := by
    simp only [List.count_eq_zero]
    obtain ⟨d, -, rfl | ⟨n, rfl⟩⟩ := own_or_remark fs cwd notes h
    · exact ⟨newline_not_mem_label _, newline_not_mem_id _, newline_not_mem_oneLine _⟩
    · exact ⟨(by decide : 10 ∉ ("note" : Bytes)), newline_not_mem_id _, newline_not_mem_oneLine _⟩
  have hmember : (if a.member.isEmpty then [] else " " ++ a.member ++ ":" : Bytes).count 10
      = a.member.count 10 := by
    split
    · rename_i hempty
      rw [List.isEmpty_iff.mp hempty]
    · simp [List.count_append, hmarks]
  simp only [Entry.text, List.count_append, hdigits, hmarks, hwords, hmember]
  omega

theorem text_ne_nil (a : Entry) : a.text ≠ [] := by
  have hblank : (" " : Bytes) ≠ [] := by decide
  simp [Entry.text, hblank]

/-- An entry without its member. -/
def Entry.bare (a : Entry) : Entry := { a with member := [] }

theorem eq_of_bare_eq {a b : Entry} (hbare : a.bare = b.bare) (hmember : a.member = b.member) :
    a = b := by
  cases a
  cases b
  simp only [Entry.bare, Entry.mk.injEq] at hbare hmember ⊢
  grind

/-- The text of an entry tells its member when the rest of it is known. -/
theorem eq_of_text_eq {a b : Entry} (hbare : a.bare = b.bare) (h : a.text = b.text) : a = b := by
  have hblank : (" " : Bytes) ≠ [] := by decide
  obtain ⟨s, c, p, l, k, m, t⟩ := a
  obtain ⟨s', c', p', l', k', m', t'⟩ := b
  simp only [Entry.bare, Entry.mk.injEq, true_and] at hbare
  obtain ⟨rfl, rfl, rfl, rfl, rfl, rfl⟩ := hbare
  have hmember : (if m.isEmpty then [] else " " ++ m ++ ":" : Bytes)
      = (if m'.isEmpty then [] else " " ++ m' ++ ":" : Bytes) :=
    List.append_cancel_left (List.append_cancel_right (List.append_cancel_right h))
  cases m <;> cases m' <;> simp_all

end Entries

/-! ## The order of entries -/

section Order

/-- Whether one value of `f` comes before another, and, where they are equal, whether `rest` says
so. -/
def byFirst {κ : Type} [DecidableEq κ] [LT κ] [DecidableLT κ] (f : Entry → κ)
    (rest : Entry → Entry → Bool) (a b : Entry) : Bool :=
  if f a ≠ f b then f a < f b else rest a b

/-- `before` is an order of entries up to those that are the `same`. -/
structure IsOrder (before : Entry → Entry → Bool) (same : Entry → Entry → Prop) : Prop where
  total : ∀ a b, before b a = false ∨ before a b = false
  trans : ∀ a b c, before b a = false → before c b = false → before c a = false
  same_iff : ∀ a b, same a b ↔ before b a = false ∧ before a b = false

variable {κ : Type} [DecidableEq κ] [LE κ] [LT κ] [DecidableLT κ] [Std.IsLinearOrder κ]
  [Std.LawfulOrderLT κ]

theorem isOrder_false : IsOrder (fun _ _ => false) fun _ _ => True := by
  constructor <;> simp

/-- Comparing by one more value in front leaves an order. -/
theorem IsOrder.byFirst {before : Entry → Entry → Bool} {same : Entry → Entry → Prop}
    (h : IsOrder before same) (f : Entry → κ) :
    IsOrder (byFirst f before) fun a b => f a = f b ∧ same a b := by
  obtain ⟨htotal, htrans, hsame⟩ := h
  constructor
  · intro a b
    unfold Golden.byFirst
    grind
  · intro a b c
    unfold Golden.byFirst
    grind
  · intro a b
    unfold Golden.byFirst
    grind

theorem precedes_eq : precedes = byFirst (·.path) (byFirst (·.line) (byFirst (·.col)
    (byFirst (·.severity) (byFirst (·.code) (byFirst (·.message) fun _ _ => false))))) := by
  funext a b
  have hlast : byFirst (·.message) (fun _ _ => false) a b = decide (a.message < b.message) := by
    unfold byFirst
    grind
  simp only [precedes, byFirst] at hlast ⊢
  rw [hlast]

theorem isOrder_precedes : IsOrder precedes fun a b => a.bare = b.bare := by
  have h := (((((isOrder_false.byFirst (·.message)).byFirst (·.code)).byFirst
    (·.severity)).byFirst (·.col)).byFirst (·.line)).byFirst (·.path)
  rw [← precedes_eq] at h
  refine ⟨h.total, h.trans, fun a b => Iff.trans ?_ (h.same_iff a b)⟩
  simp only [Entry.bare, Entry.mk.injEq]
  grind

/-- Entries in the order of the listing. -/
def sorted (l : List Entry) : List Entry := l.mergeSort fun a b => !precedes b a

variable {l l' : List Entry}

theorem sorted_perm (l : List Entry) : (sorted l).Perm l := List.mergeSort_perm l _

theorem not_precedes_trans (a b c : Entry) (hab : !precedes b a) (hbc : !precedes c b) :
    !precedes c a := by
  rw [Bool.not_eq_true'] at hab hbc ⊢
  exact isOrder_precedes.trans a b c hab hbc

theorem not_precedes_total (a b : Entry) : !precedes b a || !precedes a b := by
  rcases isOrder_precedes.total a b with h | h <;> simp [h]

theorem pairwise_sorted (l : List Entry) :
    (sorted l).Pairwise fun a b => precedes b a = false :=
  (List.pairwise_mergeSort not_precedes_trans not_precedes_total l).imp fun h => by simpa using h

/-- The members apart, the order of the listing does not depend on the order before. -/
theorem bare_sorted (h : l'.Perm l) : (sorted l').map Entry.bare = (sorted l).map Entry.bare := by
  -- the order reads nothing but what entries without their members have
  have hsorted : ∀ l, ((sorted l).map Entry.bare).Pairwise fun a b => precedes b a = false :=
    fun l => List.pairwise_map.mpr (pairwise_sorted l)
  have hperm : ((sorted l').map Entry.bare).Perm ((sorted l).map Entry.bare) :=
    (((sorted_perm l').trans h).trans (sorted_perm l).symm).map _
  refine List.Perm.eq_of_pairwise (fun a b ha hb hab hba => ?_) (hsorted l') (hsorted l) hperm
  obtain ⟨a, -, rfl⟩ := List.mem_map.mp ha
  obtain ⟨b, -, rfl⟩ := List.mem_map.mp hb
  exact (isOrder_precedes.same_iff a.bare b.bare).mpr ⟨hab, hba⟩

/-- Entries that only their members tell apart keep their order. -/
theorem filter_sorted (a : Entry) (l : List Entry) :
    (sorted l).filter (fun b => b.bare = a.bare) = l.filter fun b => b.bare = a.bare := by
  have hties : (l.filter fun b => b.bare = a.bare).Pairwise fun b c => !precedes c b := by
    refine List.pairwise_of_forall_mem_list fun b hb c hc => ?_
    have hbare : b.bare = c.bare :=
      (of_decide_eq_true (List.mem_filter.mp hb).2).trans
        (of_decide_eq_true (List.mem_filter.mp hc).2).symm
    rw [((isOrder_precedes.same_iff b c).mp hbare).1]
    rfl
  have hsub := (List.sublist_mergeSort not_precedes_trans not_precedes_total hties
    List.filter_sublist).filter fun b => decide (b.bare = a.bare)
  simp only [List.filter_filter, Bool.and_self] at hsub
  exact (hsub.eq_of_length ((sorted_perm l).filter _).length_eq.symm).symm

/-- Entries that are told apart by more than their members are listed in one order. -/
theorem sorted_eq (h : l'.Perm l) (hmember : ∀ a ∈ l, ∀ b ∈ l, a.bare = b.bare → a = b) :
    sorted l' = sorted l := by
  refine List.Perm.eq_of_pairwise (fun a b ha hb hab hba => ?_) (pairwise_sorted l')
    (pairwise_sorted l) (((sorted_perm l').trans h).trans (sorted_perm l).symm)
  have ha' := h.mem_iff.mp ((sorted_perm l').mem_iff.mp ha)
  exact hmember a ha' b ((sorted_perm l).mem_iff.mp hb)
    ((isOrder_precedes.same_iff a b).mpr ⟨hab, hba⟩)

end Order

/-! ## Lines -/

/-- The lines of a text; the empty text has none. -/
def lines (t : Bytes) : List Bytes := if t.isEmpty then [] else Bytes.splitOn 10 t

theorem join_ne_nil (sep : Bytes) {c : Bytes} (hc : c ≠ []) (rest : List Bytes) :
    Bytes.join sep (c :: rest) ≠ [] := by
  cases rest with
  | nil => simpa [Bytes.join] using hc
  | cons d rest => simp [Bytes.join, List.intercalate_cons_cons, hc]

theorem count_join {cs : List Bytes} (hcs : cs ≠ []) :
    (Bytes.join [10] cs).count 10 + 1 = cs.length + (cs.map (List.count 10)).sum := by
  induction cs with
  | nil => exact absurd rfl hcs
  | cons c rest ih =>
    cases rest with
    | nil => simp [Bytes.join, Nat.add_comm]
    | cons d rest =>
      have hrest := ih (List.cons_ne_nil _ _)
      simp only [Bytes.join, List.intercalate_cons_cons, List.count_append,
        List.count_singleton_self, List.length_cons, List.map_cons, List.sum_cons] at hrest ⊢
      omega

section Listing

variable {fs : FileSet} {cwd : Bytes} {notes : Bool} {ds ds' : List Diagnostic}

theorem format_eq (fs : FileSet) (cwd : Bytes) (notes : Bool) (ds : List Diagnostic) :
    format fs cwd notes ds =
      Bytes.join [10] ((sorted (ds.flatMap (entries fs cwd notes))).map Entry.text) := by
  rw [← newline_eq]
  rfl

/-- The listing has a line for each entry, and one more wherever a line breaks in a path or in a
member. -/
theorem length_lines_format (fs : FileSet) (cwd : Bytes) (notes : Bool) (ds : List Diagnostic) :
    (lines (format fs cwd notes ds)).length = size notes ds +
      ((ds.flatMap (entries fs cwd notes)).map
        fun a => a.path.count 10 + a.member.count 10).sum := by
  have hcount : (ds.flatMap (entries fs cwd notes)).map (fun a => a.text.count 10)
      = (ds.flatMap (entries fs cwd notes)).map fun a => a.path.count 10 + a.member.count 10 :=
    List.map_congr_left fun a ha => count_text fs cwd notes ha
  have hperm := sorted_perm (ds.flatMap (entries fs cwd notes))
  rw [← hcount, ← (hperm.map fun a => a.text.count 10).sum_nat, ← length_entries fs cwd,
    ← hperm.length_eq, format_eq]
  cases sorted (ds.flatMap (entries fs cwd notes)) with
  | nil => rfl
  | cons a rest =>
    have hne := join_ne_nil [10] (text_ne_nil a) (rest.map Entry.text)
    rw [List.map_cons, lines, if_neg (by simpa using hne), Bytes.length_splitOn,
      count_join (List.cons_ne_nil _ _), ← List.map_cons, List.length_map, List.map_map]
    rfl

/-- No line breaks in the paths and the members of diagnostics and their notes. -/
def Unbroken (fs : FileSet) (cwd : Bytes) (notes : Bool) (ds : List Diagnostic) : Prop :=
  ∀ a ∈ ds.flatMap (entries fs cwd notes), 10 ∉ a.path ∧ 10 ∉ a.member

theorem Unbroken.perm (h : Unbroken fs cwd notes ds) (hperm : ds'.Perm ds) :
    Unbroken fs cwd notes ds' := fun a ha =>
  h a ((hperm.flatMap_right _).mem_iff.mp ha)

/-- Unless a line breaks in a path or in a member, the lines are the entries in their order. -/
theorem lines_format (h : Unbroken fs cwd notes ds) :
    lines (format fs cwd notes ds) =
      (sorted (ds.flatMap (entries fs cwd notes))).map Entry.text := by
  have hclean : ∀ t ∈ (sorted (ds.flatMap (entries fs cwd notes))).map Entry.text, 10 ∉ t := by
    intro t ht
    obtain ⟨a, ha, rfl⟩ := List.mem_map.mp ht
    have ha := (sorted_perm _).mem_iff.mp ha
    have hcount := count_text fs cwd notes ha
    rwa [List.count_eq_zero.mpr (h a ha).1, List.count_eq_zero.mpr (h a ha).2,
      List.count_eq_zero] at hcount
  rw [format_eq]
  cases hs : sorted (ds.flatMap (entries fs cwd notes)) with
  | nil => rfl
  | cons a rest =>
    have hne := join_ne_nil [10] (text_ne_nil a) (rest.map Entry.text)
    rw [hs] at hclean
    rw [List.map_cons, lines, if_neg (by simpa using hne),
      Bytes.splitOn_join (List.cons_ne_nil _ _) hclean]

/-- Diagnostics with the same entry but for the member have the same member. -/
def MembersAgree (fs : FileSet) (cwd : Bytes) (ds : List Diagnostic) : Prop :=
  ∀ d ∈ ds, ∀ e ∈ ds, (own fs cwd d).bare = (own fs cwd e).bare → d.member = e.member

/-- Unless only a member tells two diagnostics apart, their order does not show in the listing. -/
theorem format_perm (h : ds'.Perm ds) (hmember : MembersAgree fs cwd ds) :
    format fs cwd notes ds' = format fs cwd notes ds := by
  rw [format_eq, format_eq, sorted_eq (h.flatMap_right _)]
  intro a ha b hb hbare
  have hlabel : ∀ s, label s ≠ "note" := fun s h =>
    absurd (h ▸ label_mem s) (by decide)
  obtain ⟨d, hd, rfl | ⟨n, rfl⟩⟩ := own_or_remark fs cwd notes ha <;>
    obtain ⟨e, he, rfl | ⟨n', rfl⟩⟩ := own_or_remark fs cwd notes hb
  · exact eq_of_bare_eq hbare (hmember d hd e he hbare)
  · exact absurd (congrArg Entry.severity hbare) (hlabel _)
  · exact absurd (congrArg Entry.severity hbare).symm (hlabel _)
  · exact hbare

/-- Of two diagnostics with the same entry but for the member, the listing shows which one came
first. -/
theorem own_eq_of_format_eq {d e : Diagnostic} (hperm : (d :: ds).Perm (e :: ds'))
    (hclean : Unbroken fs cwd notes (d :: ds))
    (hbare : (own fs cwd d).bare = (own fs cwd e).bare)
    (hformat : format fs cwd notes (d :: ds) = format fs cwd notes (e :: ds')) :
    own fs cwd d = own fs cwd e := by
  have hentries := hperm.flatMap_right (entries fs cwd notes)
  have htext := lines_format hclean
  rw [hformat, lines_format (hclean.perm hperm.symm)] at htext
  have hsorted : sorted ((e :: ds').flatMap (entries fs cwd notes))
      = sorted ((d :: ds).flatMap (entries fs cwd notes)) := by
    have hinj : Function.Injective fun a : Entry => (a.text, a.bare) := fun a b h =>
      eq_of_text_eq (Prod.mk.inj h).2 (Prod.mk.inj h).1
    refine List.map_injective_iff.mpr hinj ?_
    rw [← List.zip_map', ← List.zip_map', htext, bare_sorted hentries.symm]
  -- both entries come first among those that only the member tells apart
  have hfirst := filter_sorted (own fs cwd d) ((d :: ds).flatMap (entries fs cwd notes))
  rw [← hsorted, filter_sorted, List.flatMap_cons, List.flatMap_cons, entries_eq, entries_eq,
    List.cons_append, List.cons_append, List.filter_cons_of_pos (by simp [hbare]),
    List.filter_cons_of_pos (by simp)] at hfirst
  exact (List.cons.inj hfirst).1.symm

/-- The listing is the same for every order of the diagnostics, with one line for each diagnostic
and for each note that is wanted, exactly when no two diagnostics are told apart by nothing but
their members and no line breaks in a path or in a member. -/
theorem format_canonical_iff (fs : FileSet) (cwd : Bytes) (notes : Bool) (ds : List Diagnostic) :
    (∀ ds', ds'.Perm ds → format fs cwd notes ds' = format fs cwd notes ds ∧
        (lines (format fs cwd notes ds')).length = size notes ds') ↔
      MembersAgree fs cwd ds ∧ Unbroken fs cwd notes ds := by
  constructor
  · intro h
    have hclean : Unbroken fs cwd notes ds := by
      intro a ha
      have hlines := (h ds (.refl ds)).2
      rw [length_lines_format, Nat.add_eq_left, List.sum_eq_zero_iff_forall_eq_nat] at hlines
      have hzero := hlines _ (List.mem_map_of_mem ha)
      exact ⟨List.count_eq_zero.mp (by omega), List.count_eq_zero.mp (by omega)⟩
    refine ⟨fun d hd e he hbare => ?_, hclean⟩
    -- either of the two may be put in front of all others
    have hd := (List.perm_cons_erase hd).symm
    have he := (List.perm_cons_erase he).symm
    have hown := own_eq_of_format_eq (hd.trans he.symm) (hclean.perm hd) hbare
      ((h _ hd).1.trans (h _ he).1.symm)
    exact congrArg Entry.member hown
  · rintro ⟨hmember, hclean⟩ ds' hperm
    refine ⟨format_perm hperm hmember, ?_⟩
    rw [lines_format (hclean.perm hperm), List.length_map, (sorted_perm _).length_eq,
      length_entries]

/-- Two diagnostics that only their members tell apart are listed as they come, and a line that
breaks in a member is two. -/
theorem format_order_shows :
    let f : Diagnostic :=
      { severity := .warning, code := ⟨4002⟩, member := "P::f", span := ⟨8, 1, 1⟩,
        message := "same" }
    let g : Diagnostic :=
      { severity := .warning, code := ⟨4002⟩, member := "P::g", span := ⟨9, 1, 1⟩,
        message := "same" }
    let broken : Diagnostic := { f with member := "P::f\ng" }
    [f, g].Perm [g, f] ∧ format {} "/work" true [f, g] ≠ format {} "/work" true [g, f] ∧
      (lines (format {} "/work" true [broken])).length ≠ size true [broken] := by
  refine ⟨by decide, ?_, ?_⟩
  · rw [format, format, List.mergeSort_of_pairwise (by decide +kernel),
      List.mergeSort_of_pairwise (by decide +kernel)]
    decide +kernel
  · rw [length_lines_format]
    decide +kernel

end Listing

end Golden

end WastForge
