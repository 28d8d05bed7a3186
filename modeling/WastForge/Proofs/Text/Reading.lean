import WastForge.Script.Reader

/-!
# Reading what was written

Module text is laid out in lines and read back as forms. As long as every word is one that the
reader takes as a whole, the forms of the text are those that the lines stand for.
-/

namespace WastForge

namespace Token

/-- Whether a text is read as one word: it is not empty, no byte of it ends a word, and it does not
start a remark. -/
def isWord (w : Bytes) : Bool :=
  !w.isEmpty && w.all (fun b => !endsWord b) && !([59, 59] : Bytes).isPrefixOf w

theorem isWord_cons {b : UInt8} {w : Bytes} (h : isWord (b :: w)) :
    endsWord b = false ∧ (∀ c ∈ w, endsWord c = false)
      ∧ (b == 59 && w.head? == some 59) = false := by
  simp only [isWord, List.isEmpty_cons, Bool.not_false, Bool.true_and, List.all_cons,
    Bool.and_eq_true, Bool.not_eq_true', List.all_eq_true] at h
  obtain ⟨⟨hb, hw⟩, hremark⟩ := h
  refine ⟨hb, fun c hc => hw c hc, ?_⟩
  rw [← hremark]
  cases w with
  | nil => simp [List.isPrefixOf]
  | cons c w => simp [List.isPrefixOf, BEq.comm (b := (59 : UInt8))]

theorem endsWord_eq_false {b : UInt8} (h : endsWord b = false) :
    (b == 10) = false ∧ isBlank b = false ∧ (b == 40) = false ∧ (b == 41) = false ∧
      (b == 34) = false := by
  simp only [endsWord, Bool.or_eq_false_iff] at h
  obtain ⟨⟨⟨⟨h40, h41⟩, h34⟩, h10⟩, hblank⟩ := h
  exact ⟨h10, hblank, h40, h41, h34⟩

/-! ### What the next byte does -/

theorem scanFrom_between (line : UInt32) (b : UInt8) (rest : Bytes) :
    scanFrom .between line (b :: rest)
      = if b == 10 then scanFrom .between (line + 1) rest
        else if isBlank b then scanFrom .between line rest
        else if b == 59 && rest.head? == some 59 then scanFrom .remark line rest
        else if b == 40 then ⟨.opening, line⟩ :: scanFrom .between line rest
        else if b == 41 then ⟨.closing, line⟩ :: scanFrom .between line rest
        else if b == 34 then scanFrom (.text line []) line rest
        else if atWordEnd rest then ⟨.word [b], line⟩ :: scanFrom .between line rest
        else scanFrom (.word [b]) line rest := rfl

theorem scanFrom_inRemark (line : UInt32) (b : UInt8) (rest : Bytes) :
    scanFrom .remark line (b :: rest)
      = if b == 10 then scanFrom .between (line + 1) rest else scanFrom .remark line rest := rfl

theorem scanFrom_inWord (line : UInt32) (rev : Bytes) (b : UInt8) (rest : Bytes) :
    scanFrom (.word rev) line (b :: rest)
      = if atWordEnd rest then ⟨.word (b :: rev).reverse, line⟩ :: scanFrom .between line rest
        else scanFrom (.word (b :: rev)) line rest := rfl

theorem scanFrom_textEnd (start line : UInt32) (rev rest : Bytes) :
    scanFrom (.text start rev) line (34 :: rest)
      = ⟨.text rev.reverse, start⟩ :: scanFrom .between line rest := rfl

/-! ### Words and texts -/

theorem scanFrom_word (line : UInt32) (rev : Bytes) (b : UInt8) (w rest : Bytes)
    (hw : ∀ c ∈ w, endsWord c = false) (hrest : atWordEnd rest) :
    scanFrom (.word rev) line (b :: w ++ rest) =
      ⟨.word (rev.reverse ++ b :: w), line⟩ :: scanFrom .between line rest := by
  induction w generalizing rev b with
  | nil =>
    simp only [List.cons_append, List.nil_append, scanFrom_inWord, hrest, if_true]
    simp
  | cons c w ih =>
    have hc : atWordEnd (c :: w ++ rest) = false := by
      simpa [atWordEnd] using hw c (by simp)
    rw [List.cons_append, scanFrom_inWord, if_neg (by rw [hc]; simp)]
    rw [ih (b :: rev) c (fun d hd => hw d (by simp [hd]))]
    simp

/-- A word in front of something that ends it is cut off as a whole. -/
theorem scanFrom_isWord (line : UInt32) {w : Bytes} (rest : Bytes) (h : isWord w)
    (hrest : atWordEnd rest) :
    scanFrom .between line (w ++ rest) = ⟨.word w, line⟩ :: scanFrom .between line rest := by
  cases w with
  | nil => simp [isWord] at h
  | cons b w =>
    obtain ⟨hb, hw, hremark⟩ := isWord_cons h
    obtain ⟨h10, hblank, h40, h41, h34⟩ := endsWord_eq_false hb
    have hremark' : (b == 59 && (w ++ rest).head? == some 59) = false := by
      cases w with
      | cons c w => exact hremark
      | nil =>
        cases rest with
        | nil => simp
        | cons c rest =>
          have hc : c ≠ 59 := by
            rintro rfl
            simp [atWordEnd, endsWord, isBlank] at hrest
          simp [hc]
    rw [List.cons_append, scanFrom_between]
    simp only [h10, hblank, hremark', h40, h41, h34, Bool.false_eq_true, if_false]
    cases w with
    | nil => simp only [List.nil_append, hrest, if_true]
    | cons c w =>
      have hc : atWordEnd (c :: w ++ rest) = false := by
        simpa [atWordEnd] using hw c (by simp)
      rw [if_neg (by rw [hc]; simp)]
      rw [scanFrom_word line [b] c w rest (fun d hd => hw d (by simp [hd])) hrest]
      rfl

/-- The two digits behind a backslash are read as the byte they were written for. -/
theorem natIn?_hexByte (b : UInt8) :
    escaped? (Bytes.digit (b.toNat / 16)) = none ∧
      Radix.natIn? 16 255 (Bytes.hexByte b) = some b.toNat := by
  have h : ∀ k : Fin 256, escaped? (Bytes.digit (k.val / 16)) = none ∧
      Radix.natIn? 16 255 [Bytes.digit (k.val / 16), Bytes.digit (k.val % 16)] = some k.val := by
    decide +kernel
  exact h ⟨b.toNat, b.toNat_lt⟩

theorem scanFrom_quoteByte (start line : UInt32) (rev : Bytes) (b : UInt8) (rest : Bytes) :
    scanFrom (.text start rev) line (Form.quoteByte b ++ rest) =
      scanFrom (.text start (b :: rev)) line rest := by
  unfold Form.quoteByte
  split
  · rename_i h
    simp only [Bool.and_eq_true, decide_eq_true_eq, bne_iff_ne] at h
    obtain ⟨⟨⟨hlo, -⟩, h34⟩, h92⟩ := h
    have h10 : b ≠ 10 := by
      rintro rfl
      exact absurd hlo (by decide)
    rw [List.singleton_append, scanFrom.eq_def]
    split <;> simp_all
  · obtain ⟨hesc, hread⟩ := natIn?_hexByte b
    unfold Bytes.hexByte at hread ⊢
    simp only [List.cons_append, List.nil_append, scanFrom, hesc, hread]
    simp

theorem scanFrom_quoteBytes (start line : UInt32) (rev content rest : Bytes) :
    scanFrom (.text start rev) line (content.flatMap Form.quoteByte ++ rest) =
      scanFrom (.text start (content.reverse ++ rev)) line rest := by
  induction content generalizing rev with
  | nil => rfl
  | cons b content ih =>
    rw [List.flatMap_cons, List.append_assoc, scanFrom_quoteByte, ih]
    simp

/-- A quoted text is cut off with the bytes it was written for. -/
theorem scanFrom_quote (line : UInt32) (content rest : Bytes) :
    scanFrom .between line (Form.quote content ++ rest) =
      ⟨.text content, line⟩ :: scanFrom .between line rest := by
  have h : scanFrom .between line (Form.quote content ++ rest) =
      scanFrom (.text line []) line (content.flatMap Form.quoteByte ++ (34 :: rest)) := by
    simp [Form.quote, scanFrom_between, isBlank]
  rw [h, scanFrom_quoteBytes, scanFrom_textEnd]
  simp

theorem scanFrom_blank (line : UInt32) (rest : Bytes) :
    scanFrom .between line (32 :: rest) = scanFrom .between line rest := by
  rw [scanFrom_between]
  simp [isBlank]

theorem scanFrom_indent (line : UInt32) (depth : Nat) (rest : Bytes) :
    scanFrom .between line (Line.indent depth ++ rest) = scanFrom .between line rest := by
  unfold Line.indent
  induction 2 * depth with
  | zero => rfl
  | succ n ih => rw [List.replicate_succ, List.cons_append, scanFrom_blank, ih]

theorem scanFrom_newline (line : UInt32) (rest : Bytes) :
    scanFrom .between line (10 :: rest) = scanFrom .between (line + 1) rest := by
  rw [scanFrom_between]
  simp

theorem scanFrom_opening (line : UInt32) (rest : Bytes) :
    scanFrom .between line (40 :: rest) = ⟨.opening, line⟩ :: scanFrom .between line rest := by
  rw [scanFrom_between]
  simp [isBlank]

theorem scanFrom_closing (line : UInt32) (rest : Bytes) :
    scanFrom .between line (41 :: rest) = ⟨.closing, line⟩ :: scanFrom .between line rest := by
  rw [scanFrom_between]
  simp [isBlank]

theorem scanFrom_remark (line : UInt32) (text rest : Bytes) (h : 10 ∉ text) :
    scanFrom .remark line (text ++ 10 :: rest) = scanFrom .between (line + 1) rest := by
  induction text with
  | nil =>
    rw [List.nil_append, scanFrom_inRemark]
    simp
  | cons b text ih =>
    have hb : (b == 10) = false := by
      rw [beq_eq_false_iff_ne]
      rintro rfl
      exact h (by simp)
    rw [List.cons_append, scanFrom_inRemark, hb]
    exact ih (fun hm => h (by simp [hm]))

end Token

namespace Form

mutual

/-- Whether all words of a form are read as words. -/
def isReadable : Form → Bool
  | .atom word => Token.isWord word
  | .text _ => true
  | .list items => areReadable items

/-- Whether all words of several forms are read as words. -/
def areReadable : List Form → Bool
  | [] => true
  | f :: rest => f.isReadable && areReadable rest

end

theorem areReadable_iff (fs : List Form) : areReadable fs ↔ ∀ f ∈ fs, f.isReadable := by
  induction fs with
  | nil => simp [areReadable]
  | cons f fs ih => simp [areReadable, ih]

theorem renderAll_eq_map (fs : List Form) : renderAll fs = fs.map render := by
  induction fs with
  | nil => rfl
  | cons f fs ih => rw [renderAll, ih, List.map_cons]

end Form

namespace Line

mutual

/-- Whether all words of a line are read as words and no remark ends early. -/
def isReadable : Line → Bool
  | .blank => true
  | .comment text => !text.contains 10
  | .form f => f.isReadable
  | .group head body => (head.filterMap id).all Form.isReadable && areReadable body

/-- Whether several lines can be read. -/
def areReadable : List Line → Bool
  | [] => true
  | l :: rest => l.isReadable && areReadable rest

end

theorem areReadable_append (a b : List Line) :
    areReadable (a ++ b) = (areReadable a && areReadable b) := by
  induction a with
  | nil => simp [areReadable]
  | cons l a ih => simp [areReadable, ih, Bool.and_assoc]

theorem areReadable_iff (ls : List Line) : areReadable ls ↔ ∀ l ∈ ls, l.isReadable := by
  induction ls with
  | nil => simp [areReadable]
  | cons l ls ih => simp [areReadable, ih]

theorem renderHead_singleton (f : Form) : renderHead [some f] = f.render := by
  simp [renderHead, Bytes.join, List.intercalate]

theorem renderHead_cons_cons (part next : Option Form) (parts : List (Option Form)) :
    renderHead (part :: next :: parts) = renderHead [part] ++ 32 :: renderHead (next :: parts) := by
  unfold renderHead Bytes.join
  rw [List.map_cons, List.map_cons, List.intercalate_cons_cons, List.append_assoc]
  simp only [List.map_cons, List.map_nil, List.intercalate_singleton]
  rfl

theorem renderHead_map_some (fs : List Form) :
    renderHead (fs.map some) = Bytes.join " " (Form.renderAll fs) := by
  rw [Form.renderAll_eq_map]
  unfold renderHead
  rw [List.map_map]
  rfl

theorem formsAll_append (a b : List Line) : formsAll (a ++ b) = formsAll a ++ formsAll b := by
  induction a with
  | nil => rfl
  | cons l a ih => simp only [List.cons_append, formsAll, ih, List.append_assoc]

end Line

theorem SourceForm.forms_append (a b : List SourceForm) :
    SourceForm.forms (a ++ b) = SourceForm.forms a ++ SourceForm.forms b := by
  induction a with
  | nil => rfl
  | cons f a ih => rw [List.cons_append, SourceForm.forms, SourceForm.forms, ih, List.cons_append]

theorem SourceForm.forms_eq_map (fs : List SourceForm) :
    SourceForm.forms fs = fs.map SourceForm.form := by
  induction fs with
  | nil => rfl
  | cons f fs ih => rw [SourceForm.forms, ih, List.map_cons]

namespace Script

/-- How far the reader has come: the open lists and the finished forms. -/
abbrev Progress := List OpenList × List SourceForm

/-- Read on. -/
def resume (p : Progress) (tokens : List Token) : Result (List SourceForm) :=
  readFrom p.1 p.2 tokens

/-- Put several forms in order into the innermost open list. -/
def pushAll (ns : List SourceForm) (p : Progress) : Progress :=
  ns.foldl (fun p n => push n p.1 p.2) p

theorem pushAll_append (a b : List SourceForm) (p : Progress) :
    pushAll (a ++ b) p = pushAll b (pushAll a p) := List.foldl_append

theorem pushAll_open (ns : List SourceForm) (o : OpenList) (outer : List OpenList)
    (done : List SourceForm) :
    pushAll ns (o :: outer, done) = ({ o with rev := ns.reverse ++ o.rev } :: outer, done) := by
  induction ns generalizing o with
  | nil => rfl
  | cons n ns ih =>
    show pushAll ns ({ o with rev := n :: o.rev } :: outer, done) = _
    rw [ih]
    simp

theorem pushAll_done (ns done : List SourceForm) :
    pushAll ns ([], done) = ([], ns.reverse ++ done) := by
  induction ns generalizing done with
  | nil => rfl
  | cons n ns ih =>
    show pushAll ns ([], n :: done) = _
    rw [ih]
    simp

theorem resume_opening (p : Progress) (line : UInt32) (tokens : List Token) :
    resume p (⟨.opening, line⟩ :: tokens) = resume (⟨line, []⟩ :: p.1, p.2) tokens := rfl

/-- Closing a list puts it into the list around it. -/
theorem resume_closing (p : Progress) (start line : UInt32) (ns : List SourceForm)
    (tokens : List Token) :
    resume (pushAll ns (⟨start, []⟩ :: p.1, p.2)) (⟨.closing, line⟩ :: tokens) =
      resume (pushAll [.list start ns] p) tokens := by
  rw [pushAll_open]
  simp [resume, readFrom, pushAll]

/-- The text `s`, met on the line `line` and ended by `line'`, is read as the forms `ns`, whatever
was read before and whatever follows that ends a word. -/
def ReadsTo (line line' : UInt32) (s : Bytes) (ns : List SourceForm) : Prop :=
  ∀ (p : Progress) (rest : Bytes), Token.atWordEnd rest →
    resume p (Token.scanFrom .between line (s ++ rest)) =
      resume (pushAll ns p) (Token.scanFrom .between line' rest)

/-- Texts follow one another as long as the second one ends a word of the first. -/
theorem readsTo_append {line line' line'' : UInt32} {s t : Bytes} {ns ns' : List SourceForm}
    (hs : ReadsTo line line' s ns) (ht : ReadsTo line' line'' t ns')
    (hend : ∀ rest, Token.atWordEnd rest → Token.atWordEnd (t ++ rest)) :
    ReadsTo line line'' (s ++ t) (ns ++ ns') := by
  intro p rest hrest
  rw [List.append_assoc, hs p (t ++ rest) (hend rest hrest), ht _ rest hrest, pushAll_append]

/-- A text in parentheses is read as the list of its forms. -/
theorem readsTo_list {line line' : UInt32} {s : Bytes} {ns : List SourceForm}
    (h : ReadsTo line line' s ns) : ReadsTo line line' (40 :: s ++ [41]) [.list line ns] := by
  intro p rest _
  have hend : Token.atWordEnd (41 :: rest) := rfl
  rw [List.cons_append, List.cons_append, List.append_assoc, Token.scanFrom_opening,
    resume_opening, List.singleton_append, h _ _ hend, Token.scanFrom_closing, resume_closing]

theorem readsTo_word (line : UInt32) {w : Bytes} (h : Token.isWord w) :
    ReadsTo line line w [.atom line w] := by
  intro p rest hrest
  rw [Token.scanFrom_isWord line rest h hrest]
  rfl

theorem readsTo_quote (line : UInt32) (content : Bytes) :
    ReadsTo line line (Form.quote content) [.text line content] := by
  intro p rest _
  rw [Token.scanFrom_quote]
  rfl

/-- The text `s`, met on the line `line` and ended by `line'`, is read as forms that stand for
`fs`, whatever was read before and whatever follows that ends a word. -/
def ReadsAs (line line' : UInt32) (s : Bytes) (fs : List Form) : Prop :=
  ∃ ns : List SourceForm, SourceForm.forms ns = fs ∧
    ∀ (p : Progress) (rest : Bytes), Token.atWordEnd rest →
      resume p (Token.scanFrom .between line (s ++ rest)) =
        resume (pushAll ns p) (Token.scanFrom .between line' rest)

theorem readsAs_nil (line : UInt32) : ReadsAs line line [] [] :=
  ⟨[], rfl, fun _ _ _ => rfl⟩

theorem readsAs_append {line line' line'' : UInt32} {s t : Bytes} {fs gs : List Form}
    (hs : ReadsAs line line' s fs) (ht : ReadsAs line' line'' t gs)
    (hend : ∀ rest, Token.atWordEnd rest → Token.atWordEnd (t ++ rest)) :
    ReadsAs line line'' (s ++ t) (fs ++ gs) := by
  obtain ⟨ns, hns, hread⟩ := hs
  obtain ⟨ns', hns', hread'⟩ := ht
  exact ⟨ns ++ ns', by rw [SourceForm.forms_append, hns, hns'], readsTo_append hread hread' hend⟩

/-- A blank before a text changes nothing. -/
theorem readsAs_blank {line line' : UInt32} {s : Bytes} {fs : List Form}
    (h : ReadsAs line line' s fs) : ReadsAs line line' (32 :: s) fs := by
  obtain ⟨ns, hns, hread⟩ := h
  refine ⟨ns, hns, ?_⟩
  intro p rest hrest
  rw [List.cons_append, Token.scanFrom_blank, hread p rest hrest]

theorem readsAs_list {line line' : UInt32} {s : Bytes} {fs : List Form}
    (h : ReadsAs line line' s fs) : ReadsAs line line' (40 :: s ++ [41]) [.list fs] := by
  obtain ⟨ns, hns, hread⟩ := h
  exact ⟨[.list line ns], by simp [SourceForm.forms, SourceForm.form, hns], readsTo_list hread⟩

theorem readsAs_word (line : UInt32) {w : Bytes} (h : Token.isWord w) :
    ReadsAs line line w [.atom w] :=
  ⟨[.atom line w], rfl, readsTo_word line h⟩

theorem readsAs_quote (line : UInt32) (content : Bytes) :
    ReadsAs line line (Form.quote content) [.text content] :=
  ⟨[.text line content], rfl, readsTo_quote line content⟩

/-- Forms with blanks between them; one that is missing leaves only its blank. -/
theorem readsAs_head (line : UInt32) (parts : List (Option Form))
    (h : ∀ f, some f ∈ parts → ReadsAs line line f.render [f]) :
    ReadsAs line line (Line.renderHead parts) (parts.filterMap id) := by
  induction parts with
  | nil => exact readsAs_nil line
  | cons part parts ih =>
    have htail := ih fun f hf => h f (by simp [hf])
    have hpart : ReadsAs line line (Line.renderHead [part]) part.toList := by
      cases part with
      | none => exact readsAs_nil line
      | some f =>
        rw [Line.renderHead_singleton]
        exact h f (by simp)
    have hforms : (part :: parts).filterMap id = part.toList ++ parts.filterMap id := by
      cases part <;> rfl
    rw [hforms]
    cases parts with
    | nil => simpa using hpart
    | cons next parts =>
      rw [Line.renderHead_cons_cons]
      exact readsAs_append hpart (readsAs_blank htail) fun _ _ => rfl

mutual

/-- A readable form is read back. -/
theorem readsAs_render (line : UInt32) (f : Form) (h : f.isReadable) :
    ReadsAs line line f.render [f] := by
  cases f with
  | atom w => exact readsAs_word line h
  | text content => exact readsAs_quote line content
  | list items =>
    have hitems := readsAs_renderAll line items h
    have hparts := readsAs_head line (items.map some) (by simpa using hitems)
    rw [Line.renderHead_map_some] at hparts
    simpa [Form.render] using readsAs_list hparts

theorem readsAs_renderAll (line : UInt32) (fs : List Form) (h : Form.areReadable fs) :
    ∀ f ∈ fs, ReadsAs line line f.render [f] := by
  cases fs with
  | nil => simp
  | cons f fs =>
    simp only [Form.areReadable, Bool.and_eq_true] at h
    intro g hg
    rcases List.mem_cons.mp hg with heq | hg
    · rw [heq]
      exact readsAs_render line f h.1
    · exact readsAs_renderAll line fs h.2 g hg

end

/-- The text `s`, met on the line `line` and ended by `line'`, is read as forms that stand for
`fs`, whatever was read before and whatever follows. -/
def ReadsThrough (line line' : UInt32) (s : Bytes) (fs : List Form) : Prop :=
  ∃ ns : List SourceForm, SourceForm.forms ns = fs ∧
    ∀ (p : Progress) (rest : Bytes),
      resume p (Token.scanFrom .between line (s ++ rest)) =
        resume (pushAll ns p) (Token.scanFrom .between line' rest)

theorem readsThrough_append {line line' line'' : UInt32} {s t : Bytes} {fs gs : List Form}
    (hs : ReadsThrough line line' s fs) (ht : ReadsThrough line' line'' t gs) :
    ReadsThrough line line'' (s ++ t) (fs ++ gs) := by
  obtain ⟨ns, hns, hread⟩ := hs
  obtain ⟨ns', hns', hread'⟩ := ht
  refine ⟨ns ++ ns', by rw [SourceForm.forms_append, hns, hns'], ?_⟩
  intro p rest
  rw [List.append_assoc, hread, hread', pushAll_append]

/-- The end of the line ends the last word of a text. -/
theorem readsThrough_newline {line line' : UInt32} {s : Bytes} {fs : List Form} (depth : Nat)
    (h : ReadsAs line line' s fs) :
    ReadsThrough line (line' + 1) (Line.indent depth ++ s ++ [10]) fs := by
  obtain ⟨ns, hns, hread⟩ := h
  refine ⟨ns, hns, ?_⟩
  intro p rest
  rw [List.append_assoc, List.append_assoc, Token.scanFrom_indent, List.singleton_append,
    hread p (10 :: rest) rfl, Token.scanFrom_newline]

/-- A remark is passed over. -/
theorem readsThrough_comment (depth : Nat) (line : UInt32) {text : Bytes} (h : 10 ∉ text) :
    ReadsThrough line (line + 1) (Line.indent depth ++ (";; " : Bytes) ++ text ++ [10]) [] := by
  refine ⟨[], rfl, ?_⟩
  intro p rest
  have hstart : ∀ t : Bytes, Token.scanFrom .between line ((";; " : Bytes) ++ t) =
      Token.scanFrom .remark line ([59, 32] ++ t) := by
    intro t
    show Token.scanFrom .between line (59 :: 59 :: 32 :: t) = _
    rw [Token.scanFrom]
    simp [Token.isBlank]
  have htext : 10 ∉ [59, 32] ++ text := by simpa using h
  rw [List.append_assoc, List.append_assoc, List.append_assoc, Token.scanFrom_indent, hstart,
    ← List.append_assoc, List.singleton_append, Token.scanFrom_remark line _ rest htext]
  rfl

/-- A form over several lines is read as the list of what stands on its first line and what stands
on the others. -/
theorem readsThrough_group {line line' : UInt32} {s t : Bytes} {fs gs : List Form} (depth : Nat)
    (hs : ReadsAs line line s fs) (ht : ReadsThrough (line + 1) line' t gs) :
    ReadsThrough line (line' + 1)
      (Line.indent depth ++ 40 :: s ++ [10] ++ t ++ Line.indent depth ++ [41, 10])
      [.list (fs ++ gs)] := by
  obtain ⟨ns, hns, hread⟩ := hs
  obtain ⟨ns', hns', hread'⟩ := ht
  refine ⟨[.list line (ns ++ ns')], ?_, ?_⟩
  · simp only [SourceForm.forms, SourceForm.form, SourceForm.forms_append, hns, hns']
  · intro p rest
    have htext : Line.indent depth ++ 40 :: s ++ [10] ++ t ++ Line.indent depth ++ [41, 10] ++ rest
        = Line.indent depth ++ (40 :: (s ++ (10 :: (t ++ (Line.indent depth ++
            (41 :: 10 :: rest)))))) := by
      simp
    rw [htext, Token.scanFrom_indent, Token.scanFrom_opening, resume_opening, hread _ _ rfl,
      Token.scanFrom_newline, hread', Token.scanFrom_indent, Token.scanFrom_closing,
      ← pushAll_append, resume_closing, Token.scanFrom_newline]

mutual

/-- A readable line is read back as the forms that it stands for. -/
theorem readsThrough_line (depth : Nat) (line : UInt32) (l : Line) (h : l.isReadable) :
    ∃ line', ReadsThrough line line' (l.render depth) l.forms := by
  cases l with
  | blank =>
    exact ⟨line + 1, readsThrough_newline 0 (readsAs_nil line)⟩
  | comment text =>
    exact ⟨line + 1, readsThrough_comment depth line (by simpa [Line.isReadable] using h)⟩
  | form f => exact ⟨line + 1, readsThrough_newline depth (readsAs_render line f h)⟩
  | group head body =>
    simp only [Line.isReadable, Bool.and_eq_true] at h
    have hhead := readsAs_head line head fun f hf => readsAs_render line f
      (List.all_eq_true.mp h.1 f (List.mem_filterMap.mpr ⟨some f, hf, rfl⟩))
    obtain ⟨line', hbody⟩ := readsThrough_lines (depth + 1) (line + 1) body h.2
    exact ⟨line' + 1, readsThrough_group depth hhead hbody⟩

theorem readsThrough_lines (depth : Nat) (line : UInt32) (ls : List Line)
    (h : Line.areReadable ls) :
    ∃ line', ReadsThrough line line' (Line.renderAll depth ls) (Line.formsAll ls) := by
  cases ls with
  | nil => exact ⟨line, [], rfl, fun _ _ => rfl⟩
  | cons l ls =>
    simp only [Line.areReadable, Bool.and_eq_true] at h
    obtain ⟨line', hl⟩ := readsThrough_line depth line l h.1
    obtain ⟨line'', hls⟩ := readsThrough_lines depth line' ls h.2
    exact ⟨line'', readsThrough_append hl hls⟩

end

theorem read_of_pushed {s : Bytes} {ns : List SourceForm} {line : UInt32}
    (h : resume ([], []) (Token.scanFrom .between 1 s) =
      resume (pushAll ns ([], [])) (Token.scanFrom .between line [])) :
    read s = .ok ns := by
  show resume ([], []) (Token.scanFrom .between 1 s) = _
  rw [h, pushAll_done]
  simp [resume, Token.scanFrom, readFrom]

/-- A readable form, written on one line, is read back. -/
theorem read_render (f : Form) (h : f.isReadable) :
    ∃ n : SourceForm, read f.render = .ok [n] ∧ n.form = f := by
  obtain ⟨ns, hns, hread⟩ := readsAs_render 1 f h
  have hread := hread ([], []) [] rfl
  rw [List.append_nil] at hread
  obtain ⟨n, rfl⟩ : ∃ n, ns = [n] := by
    rw [SourceForm.forms_eq_map, List.map_eq_singleton_iff] at hns
    exact ⟨hns.choose, hns.choose_spec.1⟩
  simp only [SourceForm.forms, List.cons.injEq, and_true] at hns
  exact ⟨n, read_of_pushed hread, hns⟩

/-- Readable lines are read back as the forms that they stand for, however deep they stand. -/
theorem read_renderAll (depth : Nat) (ls : List Line) (h : Line.areReadable ls) :
    ∃ ns, read (Line.renderAll depth ls) = .ok ns ∧ SourceForm.forms ns = Line.formsAll ls := by
  obtain ⟨line, ns, hns, hread⟩ := readsThrough_lines depth 1 ls h
  have hread := hread ([], []) []
  rw [List.append_nil] at hread
  exact ⟨ns, read_of_pushed hread, hns⟩

end Script

end WastForge
