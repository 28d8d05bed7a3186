import WastForge.Proofs.Text.Reading

/-!
# Text in any layout

Blanks, ends of lines and remarks may stand between the forms of a text. The reader gives the forms
back, each with the line that it starts on, and a text that it does not read is a mistake of the
script.
-/

namespace WastForge

namespace Token

/-- What may stand between two forms: blanks, ends of lines, and remarks up to the end of their
line. -/
inductive IsGap : Bytes → Prop
  | nil : IsGap []
  | blank {b : UInt8} {gap : Bytes} (hb : b = 10 ∨ isBlank b) (h : IsGap gap) : IsGap (b :: gap)
  | remark {text gap : Bytes} (htext : 10 ∉ text) (h : IsGap gap) :
    IsGap (59 :: 59 :: text ++ 10 :: gap)

/-- A gap that ends the word in front of it. -/
def IsSeparator (gap : Bytes) : Prop :=
  ∃ b rest, gap = b :: rest ∧ (b = 10 ∨ isBlank b) ∧ IsGap rest

theorem IsSeparator.isGap {gap : Bytes} (h : IsSeparator gap) : IsGap gap := by
  obtain ⟨b, rest, rfl, hb, hrest⟩ := h
  exact .blank hb hrest

theorem IsSeparator.atWordEnd {gap : Bytes} (h : IsSeparator gap) (rest : Bytes) :
    atWordEnd (gap ++ rest) := by
  obtain ⟨b, _, rfl, hb, -⟩ := h
  simp only [Token.atWordEnd, List.cons_append, List.head?_cons, Option.all_some, endsWord]
  rcases hb with rfl | hb
  · rfl
  · rw [hb, Bool.or_true]

theorem atWordEnd_append {s rest : Bytes} (hs : atWordEnd s) (hrest : atWordEnd rest) :
    atWordEnd (s ++ rest) := by
  cases s with
  | nil => exact hrest
  | cons b s => exact hs

theorem newline_not_mem_word {w : Bytes} (h : isWord w) : 10 ∉ w := by
  intro hmem
  cases w with
  | nil => cases hmem
  | cons b w =>
    obtain ⟨hb, hw, _⟩ := isWord_cons h
    rcases List.mem_cons.mp hmem with heq | hmem
    · exact absurd hb (heq ▸ by decide)
    · exact absurd (hw 10 hmem) (by decide)

end Token

namespace Form

theorem newline_not_mem_quoteByte (b : UInt8) : 10 ∉ quoteByte b := by
  have h : ∀ k : Fin 256, 10 ∉ quoteByte (UInt8.ofNat k.val) := by decide +kernel
  simpa using h ⟨b.toNat, b.toNat_lt⟩

theorem newline_not_mem_quote (content : Bytes) : 10 ∉ quote content := by
  simp only [quote, List.mem_append, List.mem_cons, List.mem_flatMap, not_or, not_exists, not_and]
  exact ⟨⟨by decide, fun b _ => newline_not_mem_quoteByte b⟩, by simp⟩

end Form

namespace Script

open Token

/-- The line of what stands behind `before`; lines are counted from 1, with 32 bits. -/
def lineBehind (before : Bytes) : UInt32 := UInt32.ofNat (1 + before.count 10)

theorem lineBehind_append {s : Bytes} (h : 10 ∉ s) (before : Bytes) :
    lineBehind (before ++ s) = lineBehind before := by
  rw [lineBehind, List.count_append, List.count_eq_zero.mpr h, Nat.add_zero, lineBehind]

theorem lineBehind_newline (before : Bytes) :
    lineBehind (before ++ [10]) = lineBehind before + 1 := by
  simp only [lineBehind, List.count_append, List.count_singleton_self, ← Nat.add_assoc,
    UInt32.ofNat_add]
  rfl

/-- A gap is passed over, and its ends of lines are counted. -/
theorem scanFrom_gap {gap : Bytes} (h : IsGap gap) (before rest : Bytes) :
    scanFrom .between (lineBehind before) (gap ++ rest)
      = scanFrom .between (lineBehind (before ++ gap)) rest := by
  induction h generalizing before with
  | nil => rw [List.nil_append, List.append_nil]
  | @blank b gap hb _ ih =>
    have hgap : before ++ b :: gap = before ++ [b] ++ gap := by simp
    rw [List.cons_append, hgap, ← ih]
    rcases hb with rfl | hb
    · rw [scanFrom_newline, lineBehind_newline]
    · have hne : b ≠ 10 := by
        rintro rfl
        cases hb
      rw [scanFrom_between, if_neg (by simpa using hne), if_pos hb,
        lineBehind_append (by simpa using hne.symm)]
  | @remark text gap htext _ ih =>
    have hstart : scanFrom .between (lineBehind before) (59 :: 59 :: text ++ 10 :: gap ++ rest)
        = scanFrom .remark (lineBehind before) (59 :: text ++ 10 :: (gap ++ rest)) := by
      simp [scanFrom_between, isBlank]
    have hgap : before ++ (59 :: 59 :: text ++ 10 :: gap)
        = before ++ 59 :: 59 :: text ++ [10] ++ gap := by simp
    have hnone : 10 ∉ 59 :: 59 :: text := by simpa using htext
    rw [hstart, scanFrom_remark _ _ _ (by simpa using htext), hgap, ← ih, lineBehind_newline,
      lineBehind_append hnone]

/-- The text `s`, behind `before`, is a layout of forms: each stands behind a gap and in front of
something that ends a word, and has the line that it starts on. -/
inductive Layout : Bytes → List SourceForm → Bytes → Prop
  | gap {before gap : Bytes} (h : IsGap gap) : Layout before [] gap
  | word {before gap w s : Bytes} {ns : List SourceForm} (hgap : IsGap gap) (hw : isWord w)
    (hend : atWordEnd s) (hrest : Layout (before ++ gap ++ w) ns s) :
    Layout before (.atom (lineBehind (before ++ gap)) w :: ns) (gap ++ w ++ s)
  | text {before gap content s : Bytes} {ns : List SourceForm} (hgap : IsGap gap)
    (hend : atWordEnd s) (hrest : Layout (before ++ gap ++ Form.quote content) ns s) :
    Layout before (.text (lineBehind (before ++ gap)) content :: ns)
      (gap ++ Form.quote content ++ s)
  | list {before gap inner s : Bytes} {items ns : List SourceForm} (hgap : IsGap gap)
    (hitems : Layout (before ++ gap ++ [40]) items inner) (hend : atWordEnd s)
    (hrest : Layout (before ++ gap ++ (40 :: inner ++ [41])) ns s) :
    Layout before (.list (lineBehind (before ++ gap)) items :: ns)
      (gap ++ (40 :: inner ++ [41]) ++ s)

/-- A form behind a gap is read, and then what follows it. -/
theorem readsTo_next {before gap t s : Bytes} {n : SourceForm} {ns : List SourceForm}
    (hgap : IsGap gap) (hend : atWordEnd s)
    (hn : ReadsTo (lineBehind (before ++ gap)) (lineBehind (before ++ gap ++ t)) t [n])
    (hrest :
      ReadsTo (lineBehind (before ++ gap ++ t)) (lineBehind (before ++ gap ++ t ++ s)) s ns) :
    ReadsTo (lineBehind before) (lineBehind (before ++ (gap ++ t ++ s))) (gap ++ t ++ s)
      (n :: ns) := by
  have hread := readsTo_append hn hrest fun rest => atWordEnd_append hend
  intro p rest hrest
  have hline : before ++ (gap ++ t ++ s) = before ++ gap ++ t ++ s := by simp
  have htext : gap ++ t ++ s ++ rest = gap ++ (t ++ s ++ rest) := by simp
  rw [htext, scanFrom_gap hgap, hread p rest hrest, hline]
  rfl

/-- A layout of forms is read as these forms. -/
theorem readsTo_layout {before s : Bytes} {ns : List SourceForm} (h : Layout before ns s) :
    ReadsTo (lineBehind before) (lineBehind (before ++ s)) s ns := by
  induction h with
  | gap h => exact fun p rest _ => by rw [scanFrom_gap h]; rfl
  | @word before gap w s ns hgap hw hend hrest ih =>
    refine readsTo_next hgap hend ?_ ih
    rw [lineBehind_append (newline_not_mem_word hw)]
    exact readsTo_word _ hw
  | @text before gap content s ns hgap hend hrest ih =>
    refine readsTo_next hgap hend ?_ ih
    rw [lineBehind_append (Form.newline_not_mem_quote content)]
    exact readsTo_quote _ content
  | @list before gap inner s items ns hgap _ hend _ ihitems ih =>
    refine readsTo_next hgap hend ?_ ih
    have hline :
        before ++ gap ++ (40 :: inner ++ [41]) = before ++ gap ++ [40] ++ inner ++ [41] := by
      simp
    have hopen : lineBehind (before ++ gap ++ [40]) = lineBehind (before ++ gap) :=
      lineBehind_append (by simp) _
    rw [hopen] at ihitems
    rw [hline, lineBehind_append (s := [41]) (by simp)]
    exact readsTo_list ihitems

/-- A layout of forms is read back, however its lines are broken and indented. -/
theorem read_layout {s : Bytes} {ns : List SourceForm} (h : Layout [] ns s) : read s = .ok ns := by
  have hread := readsTo_layout h ([], []) [] rfl
  rw [List.append_nil, List.nil_append] at hread
  exact read_of_pushed hread

end Script

/-! ## Rendered forms -/

namespace Form

open Script

mutual

/-- What is read for a form that is rendered behind `before`: every node of it has the line that it
starts on. -/
def located (before : Bytes) : Form → SourceForm
  | .atom w => .atom (lineBehind before) w
  | .text content => .text (lineBehind before) content
  | .list items => .list (lineBehind before) (locatedItems (before ++ [40]) items)

/-- What is read for several forms with a blank between two of them. -/
def locatedItems (before : Bytes) : List Form → List SourceForm
  | [] => []
  | f :: rest => f.located before :: locatedItems (before ++ f.render ++ [32]) rest

end

mutual

theorem form_located (before : Bytes) (f : Form) : (f.located before).form = f := by
  cases f with
  | atom w => rfl
  | text content => rfl
  | list items => rw [located, SourceForm.form, forms_locatedItems]

theorem forms_locatedItems (before : Bytes) (fs : List Form) :
    SourceForm.forms (locatedItems before fs) = fs := by
  cases fs with
  | nil => rfl
  | cons f fs => rw [locatedItems, SourceForm.forms, form_located, forms_locatedItems]

end

mutual

/-- A rendered form behind a gap starts a layout. -/
theorem layout_located {f : Form} (hf : f.isReadable) {before gap s : Bytes}
    {ns : List SourceForm} (hgap : Token.IsGap gap) (hend : Token.atWordEnd s)
    (hrest : Layout (before ++ gap ++ f.render) ns s) :
    Layout before (f.located (before ++ gap) :: ns) (gap ++ f.render ++ s) := by
  cases f with
  | atom w => exact .word hgap hf hend hrest
  | text content => exact .text hgap hend hrest
  | list items =>
    have hitems := layout_locatedItems hf (before ++ gap ++ [40]) .nil
    rw [List.append_nil] at hitems
    exact .list hgap hitems hend hrest

theorem layout_locatedItems {fs : List Form} (hfs : areReadable fs) (before : Bytes) {gap : Bytes}
    (hgap : Token.IsGap gap) :
    Layout before (locatedItems (before ++ gap) fs) (gap ++ Bytes.join " " (renderAll fs)) := by
  cases fs with
  | nil =>
    have hnone : gap ++ Bytes.join " " (renderAll []) = gap := List.append_nil _
    rw [hnone]
    exact .gap hgap
  | cons f fs =>
    simp only [areReadable, Bool.and_eq_true] at hfs
    cases fs with
    | nil =>
      have hone : gap ++ Bytes.join " " (renderAll [f]) = gap ++ f.render ++ [] := by
        simp [renderAll, Bytes.join]
      rw [hone]
      exact layout_located hfs.1 hgap rfl (.gap .nil)
    | cons g fs =>
      have hmore : gap ++ Bytes.join " " (renderAll (f :: g :: fs))
          = gap ++ f.render ++ ([32] ++ Bytes.join " " (renderAll (g :: fs))) := by
        simp only [renderAll, Bytes.join, List.intercalate_cons_cons, List.append_assoc]
        rfl
      rw [hmore]
      exact layout_located hfs.1 hgap rfl
        (layout_locatedItems hfs.2 _ (.blank (.inr rfl) .nil))

end

end Form

namespace Script

open Token

/-- Forms one after the other, each behind what stands in front of it. -/
def spaced : List (Bytes × Form) → Bytes
  | [] => []
  | (gap, f) :: rest => gap ++ f.render ++ spaced rest

/-- What is read for these forms behind `before`. -/
def located (before : Bytes) : List (Bytes × Form) → List SourceForm
  | [] => []
  | (gap, f) :: rest => f.located (before ++ gap) :: located (before ++ gap ++ f.render) rest

theorem forms_located (before : Bytes) (parts : List (Bytes × Form)) :
    SourceForm.forms (located before parts) = parts.map Prod.snd := by
  induction parts generalizing before with
  | nil => rfl
  | cons part parts ih => rw [located, SourceForm.forms, Form.form_located, ih, List.map_cons]

theorem layout_separated {parts : List (Bytes × Form)} {last : Bytes}
    (hforms : ∀ x ∈ parts, x.2.isReadable) (hgaps : ∀ x ∈ parts, IsSeparator x.1)
    (hlast : last = [] ∨ IsSeparator last) (before : Bytes) :
    Layout before (located before parts) (spaced parts ++ last)
      ∧ atWordEnd (spaced parts ++ last) := by
  induction parts generalizing before with
  | nil =>
    rcases hlast with rfl | hlast
    · exact ⟨.gap .nil, rfl⟩
    · exact ⟨.gap hlast.isGap, List.append_nil last ▸ hlast.atWordEnd []⟩
  | cons part parts ih =>
    rw [List.forall_mem_cons] at hforms hgaps
    obtain ⟨hrest, hend⟩ := ih hforms.2 hgaps.2 (before ++ part.1 ++ part.2.render)
    have htext : spaced (part :: parts) ++ last
        = part.1 ++ part.2.render ++ (spaced parts ++ last) := List.append_assoc _ _ _
    refine ⟨htext ▸ Form.layout_located hforms.1 hgaps.1.isGap hend hrest, ?_⟩
    rw [htext, List.append_assoc]
    exact hgaps.1.atWordEnd _

/-- Reading gives up only for a mistake of the script. -/
theorem readFrom_error {tokens : List Token} {lists : List OpenList} {done : List SourceForm}
    {f : Failure} (h : readFrom lists done tokens = .error f) :
    ∃ d, f = .problem d ∧ d.code = .scriptSyntax := by
  induction tokens generalizing lists done with
  | nil => cases h
  | cons t tokens ih =>
    unfold readFrom at h
    cases hkind : t.kind with
    | opening | word | text =>
      simp only [hkind] at h
      exact ih h
    | closing =>
      simp only [hkind] at h
      cases lists with
      | nil => exact ⟨_, (Except.error.inj h).symm, rfl⟩
      | cons o outer => exact ih h
    | finish =>
      simp only [hkind] at h
      cases lists with
      | nil => cases h
      | cons o outer => exact ⟨_, (Except.error.inj h).symm, rfl⟩
    | bad message =>
      simp only [hkind] at h
      exact ⟨_, (Except.error.inj h).symm, rfl⟩

/-- A text is read, or there is a mistake in the script. -/
theorem read_or_malformed (s : Bytes) :
    (∃ ns, read s = .ok ns) ∨ ∃ d, read s = .error (.problem d) ∧ d.code = .scriptSyntax := by
  cases hread : read s with
  | ok ns => exact .inl ⟨ns, rfl⟩
  | error f =>
    obtain ⟨d, rfl, hcode⟩ := readFrom_error hread
    exact .inr ⟨d, rfl, hcode⟩

theorem layout_spaced {parts : List (Bytes × Form)} {last : Bytes}
    (hforms : ∀ x ∈ parts, x.2.isReadable) (hfirst : ∀ x ∈ parts.head?, IsGap x.1)
    (hgaps : ∀ x ∈ parts.tail, IsSeparator x.1) (hlast : last = [] ∨ IsSeparator last) :
    Layout [] (located [] parts) (spaced parts ++ last) := by
  cases parts with
  | nil => exact (layout_separated hforms hgaps hlast []).1
  | cons part parts =>
    rw [List.forall_mem_cons] at hforms
    obtain ⟨hrest, hend⟩ := layout_separated hforms.2 hgaps hlast ([] ++ part.1 ++ part.2.render)
    have htext : spaced (part :: parts) ++ last
        = part.1 ++ part.2.render ++ (spaced parts ++ last) := List.append_assoc _ _ _
    rw [htext]
    exact Form.layout_located hforms.1 (hfirst part rfl) hend hrest

/-- Rendered forms whose words are read as words are read back, whatever stands between them, and
each node has the line that it starts on. So are forms with gaps in their lists. No text is read
without an end: it has forms, or there is a mistake in the script. -/
theorem read_inverts_render :
    (∀ (parts : List (Bytes × Form)) (last : Bytes), (∀ x ∈ parts, x.2.isReadable) →
      (∀ x ∈ parts.head?, IsGap x.1) → (∀ x ∈ parts.tail, IsSeparator x.1) →
      (last = [] ∨ IsSeparator last) →
        read (spaced parts ++ last) = .ok (located [] parts)
          ∧ SourceForm.forms (located [] parts) = parts.map Prod.snd)
      ∧ (∀ ns s, Layout [] ns s → read s = .ok ns)
      ∧ ∀ s, (∃ ns, read s = .ok ns)
          ∨ ∃ d, read s = .error (.problem d) ∧ d.code.id = ("HAR5001" : Bytes) := by
  refine ⟨fun parts last hforms hfirst hgaps hlast => ?_, fun ns s => read_layout, fun s => ?_⟩
  · exact ⟨read_layout (layout_spaced hforms hfirst hgaps hlast), forms_located [] parts⟩
  · refine (read_or_malformed s).imp_right fun ⟨d, hread, hcode⟩ => ⟨d, hread, ?_⟩
    rw [hcode]
    decide

/-- Two forms with a remark between them: the second one starts on the third line. -/
theorem read_inverts_render_remark :
    read ("(module \"\\0a\")\n;; (end\n\tend\n" : Bytes)
      = .ok [.list 1 [.atom 1 "module", .text 1 [10]], .atom 3 "end"] := by
  have hremark : IsSeparator ("\n;; (end\n\t" : Bytes) := by
    have hblank : IsGap ("\t" : Bytes) := .blank (.inr rfl) .nil
    exact ⟨10, _, rfl, .inl rfl, @IsGap.remark " (end" _ (by decide) hblank⟩
  exact (read_inverts_render.1
    [("", .list [.atom "module", .text [10]]), ("\n;; (end\n\t", .atom "end")] [10]
    (by decide) (by rintro x ⟨⟩; exact .nil)
    (List.forall_mem_singleton.mpr hremark) (.inr ⟨10, [], rfl, .inl rfl, .nil⟩)).1

end Script

end WastForge
