import WastForge.Proofs.Text.Reading

/-!
# Text behind any lines

A line may hold anything: reading it fails, or the reader stands between words again when the line
is over. So text that is read behind other lines is read as it is by itself, if it is read at all.
-/

namespace WastForge

namespace Script

open Token

/-- Reading the rest of a line fails whatever follows, or it comes to one point between words
whatever follows. -/
def Passes (mode : Mode) (line : UInt32) (s : Bytes) : Prop :=
  ∀ p : Progress,
    (∃ p' line', ∀ rest, resume p (scanFrom mode line (s ++ 10 :: rest))
        = resume p' (scanFrom .between line' rest))
      ∨ ∀ rest, ∃ f, resume p (scanFrom mode line (s ++ 10 :: rest)) = .error f

variable {mode mode' : Mode} {line line' : UInt32} {s s' : Bytes}

theorem passes_skip (h : Passes mode' line' s')
    (hscan :
      ∀ rest, scanFrom mode line (s ++ 10 :: rest) = scanFrom mode' line' (s' ++ 10 :: rest)) :
    Passes mode line s := by
  intro p
  simp only [hscan]
  exact h p

theorem passes_bad (hscan : ∀ rest, ∃ message at_, scanFrom mode line (s ++ 10 :: rest)
    = [⟨.bad message, at_⟩]) : Passes mode line s := by
  refine fun p => .inr fun rest => ?_
  obtain ⟨message, at_, h⟩ := hscan rest
  rw [h]
  exact ⟨_, rfl⟩

/-- A piece of text leads from one point to another, or the reader fails. -/
theorem resume_token (p : Progress) (t : Token)
    (hkind : t.kind ≠ .finish ∧ ∀ message, t.kind ≠ .bad message) :
    (∃ p', ∀ rest, resume p (t :: rest) = resume p' rest)
      ∨ ∃ f, ∀ rest, resume p (t :: rest) = .error f := by
  obtain ⟨lists, done⟩ := p
  obtain ⟨kind, at_⟩ := t
  cases kind with
  | opening => exact .inl ⟨(⟨at_, []⟩ :: lists, done), fun _ => rfl⟩
  | closing =>
    cases lists with
    | nil => exact .inr ⟨_, fun _ => rfl⟩
    | cons o outer => exact .inl ⟨push (.list o.line o.rev.reverse) outer done, fun _ => rfl⟩
  | word w => exact .inl ⟨push (.atom at_ w) lists done, fun _ => rfl⟩
  | text c => exact .inl ⟨push (.text at_ c) lists done, fun _ => rfl⟩
  | finish => exact absurd rfl hkind.1
  | bad message => exact absurd rfl (hkind.2 message)

theorem passes_cons {t : Token} (hkind : t.kind ≠ .finish ∧ ∀ message, t.kind ≠ .bad message)
    (h : Passes mode' line' s')
    (hscan : ∀ rest, scanFrom mode line (s ++ 10 :: rest)
      = t :: scanFrom mode' line' (s' ++ 10 :: rest)) : Passes mode line s := by
  intro p
  simp only [hscan]
  rcases resume_token p t hkind with ⟨p', hp'⟩ | ⟨f, hf⟩
  · simp only [hp']
    exact h p'
  · exact .inr fun rest => ⟨f, hf _⟩

theorem passes_newline (line : UInt32) : Passes .between line [] :=
  fun p => .inl ⟨p, line + 1, fun rest => by rw [List.nil_append, scanFrom_newline]⟩

/-- What follows a line does not show in its first byte. -/
theorem head?_line (s rest : Bytes) : (s ++ 10 :: rest).head? = (s ++ [10]).head? := by
  cases s <;> rfl

theorem atWordEnd_line (s rest : Bytes) : atWordEnd (s ++ 10 :: rest) = atWordEnd (s ++ [10]) := by
  rw [atWordEnd, head?_line, atWordEnd]

/-- Reading the rest of a line, whatever has begun. -/
structure PassesAll (s : Bytes) : Prop where
  between : ∀ line, Passes .between line s
  remark : ∀ line, Passes .remark line s
  text : ∀ start rev line, Passes (.text start rev) line s
  word : ∀ rev line, atWordEnd (s ++ [10]) = false → Passes (.word rev) line s

theorem passesAll_nil : PassesAll [] where
  between := passes_newline
  remark line := passes_skip (passes_newline line) fun rest => by
    simp [scanFrom_inRemark, scanFrom_between]
  text start rev line := passes_bad fun rest => ⟨_, _, rfl⟩
  word rev line h := absurd h (by decide)

section

variable {b : UInt8} {t : Bytes} (h : PassesAll t)

include h

theorem PassesAll.between_cons (line : UInt32) : Passes .between line (b :: t) := by
  have hscan : ∀ rest, scanFrom .between line (b :: t ++ 10 :: rest)
      = if b == 10 then scanFrom .between (line + 1) (t ++ 10 :: rest)
        else if isBlank b then scanFrom .between line (t ++ 10 :: rest)
        else if b == 59 && (t ++ [10]).head? == some 59 then
          scanFrom .remark line (t ++ 10 :: rest)
        else if b == 40 then ⟨.opening, line⟩ :: scanFrom .between line (t ++ 10 :: rest)
        else if b == 41 then ⟨.closing, line⟩ :: scanFrom .between line (t ++ 10 :: rest)
        else if b == 34 then scanFrom (.text line []) line (t ++ 10 :: rest)
        else if atWordEnd (t ++ [10]) then
          ⟨.word [b], line⟩ :: scanFrom .between line (t ++ 10 :: rest)
        else scanFrom (.word [b]) line (t ++ 10 :: rest) := by
    intro rest
    rw [List.cons_append, scanFrom_between, head?_line, atWordEnd_line]
  by_cases h1 : b == 10
  · exact passes_skip (h.between _) fun rest => by rw [hscan, if_pos h1]
  by_cases h2 : isBlank b
  · exact passes_skip (h.between _) fun rest => by rw [hscan, if_neg h1, if_pos h2]
  by_cases h3 : (b == 59 && (t ++ [10]).head? == some 59) = true
  · exact passes_skip (h.remark _) fun rest => by rw [hscan, if_neg h1, if_neg h2, if_pos h3]
  by_cases h4 : b == 40
  · exact passes_cons (t := ⟨.opening, line⟩) (by simp) (h.between line) fun rest => by
      rw [hscan, if_neg h1, if_neg h2, if_neg h3, if_pos h4]
  by_cases h5 : b == 41
  · exact passes_cons (t := ⟨.closing, line⟩) (by simp) (h.between line) fun rest => by
      rw [hscan, if_neg h1, if_neg h2, if_neg h3, if_neg h4, if_pos h5]
  by_cases h6 : b == 34
  · exact passes_skip (h.text line [] line) fun rest => by
      rw [hscan, if_neg h1, if_neg h2, if_neg h3, if_neg h4, if_neg h5, if_pos h6]
  by_cases h7 : atWordEnd (t ++ [10])
  · exact passes_cons (t := ⟨.word [b], line⟩) (by simp) (h.between line) fun rest => by
      rw [hscan, if_neg h1, if_neg h2, if_neg h3, if_neg h4, if_neg h5, if_neg h6, if_pos h7]
  · exact passes_skip (h.word [b] line (Bool.not_eq_true _ ▸ h7)) fun rest => by
      rw [hscan, if_neg h1, if_neg h2, if_neg h3, if_neg h4, if_neg h5, if_neg h6, if_neg h7]

theorem PassesAll.remark_cons (line : UInt32) : Passes .remark line (b :: t) := by
  by_cases hb : b == 10
  · exact passes_skip (h.between _) fun rest => by
      rw [List.cons_append, scanFrom_inRemark, if_pos hb]
  · exact passes_skip (h.remark _) fun rest => by
      rw [List.cons_append, scanFrom_inRemark, if_neg hb]

theorem PassesAll.word_cons (rev : Bytes) (line : UInt32) : Passes (.word rev) line (b :: t) := by
  by_cases hend : atWordEnd (t ++ [10])
  · exact passes_cons (t := ⟨.word (b :: rev).reverse, line⟩) (by simp) (h.between line)
      fun rest => by rw [List.cons_append, scanFrom_inWord, atWordEnd_line, if_pos hend]
  · exact passes_skip (h.word _ line (Bool.not_eq_true _ ▸ hend)) fun rest => by
      rw [List.cons_append, scanFrom_inWord, atWordEnd_line, if_neg hend]

end

/-- The end of the line is no digit. -/
theorem natIn?_newline (b : UInt8) :
    Radix.natIn? 16 255 [10, b] = none ∧ Radix.natIn? 16 255 [b, 10] = none := by
  have hall : ∀ k : Fin 256, Radix.natIn? 16 255 [10, UInt8.ofNat k] = none
      ∧ Radix.natIn? 16 255 [UInt8.ofNat k, 10] = none := by
    decide +kernel
  have hb := hall ⟨b.toNat, b.toNat_lt⟩
  rwa [UInt8.ofNat_toNat] at hb

theorem scanFrom_escaped {a b : UInt8} (h : escaped? a = some b) (start line : UInt32)
    (rev rest : Bytes) :
    scanFrom (.text start rev) line (92 :: a :: rest)
      = scanFrom (.text start (b :: rev)) line rest := by
  rw [scanFrom.eq_def]
  simp only [h]

theorem scanFrom_digits {a c : UInt8} {n : Nat} (h : escaped? a = none)
    (hn : Radix.natIn? 16 255 [a, c] = some n) (start line : UInt32) (rev rest : Bytes) :
    scanFrom (.text start rev) line (92 :: a :: c :: rest)
      = scanFrom (.text start (UInt8.ofNat n :: rev)) line rest := by
  simp only [scanFrom, h, hn]

theorem scanFrom_badEscape {a c : UInt8} (h : escaped? a = none)
    (hn : Radix.natIn? 16 255 [a, c] = none) (start line : UInt32) (rev rest : Bytes) :
    scanFrom (.text start rev) line (92 :: a :: c :: rest)
      = [⟨.bad ("bad escape \\" ++ [a, c]), line⟩] := by
  simp only [scanFrom, h, hn]

/-- A quoted text does not go on behind its line, not even behind a backslash. -/
theorem PassesAll.text_escape {t : Bytes} (h : ∀ u, u.length ≤ t.length → PassesAll u)
    (start : UInt32) (rev : Bytes) (line : UInt32) : Passes (.text start rev) line (92 :: t) := by
  cases t with
  | nil =>
    refine passes_bad fun rest => ?_
    cases rest with
    | nil => exact ⟨_, _, rfl⟩
    | cons c rest => exact ⟨_, _, scanFrom_badEscape rfl (natIn?_newline c).1 _ _ _ _⟩
  | cons a u =>
    cases hescaped : escaped? a with
    | some b =>
      exact passes_skip ((h u (Nat.le_succ _)).text start (b :: rev) line) fun rest =>
        scanFrom_escaped hescaped _ _ _ _
    | none =>
      cases u with
      | nil =>
        exact passes_bad fun rest =>
          ⟨_, _, scanFrom_badEscape hescaped (natIn?_newline a).2 _ _ _ _⟩
      | cons c v =>
        cases hdigits : Radix.natIn? 16 255 [a, c] with
        | some n =>
          have hv := h v (Nat.le_add_right _ 2)
          exact passes_skip (hv.text start (UInt8.ofNat n :: rev) line) fun rest =>
            scanFrom_digits hescaped hdigits _ _ _ _
        | none =>
          exact passes_bad fun rest => ⟨_, _, scanFrom_badEscape hescaped hdigits _ _ _ _⟩

theorem PassesAll.text_cons {b : UInt8} {t : Bytes} (h : ∀ u, u.length ≤ t.length → PassesAll u)
    (start : UInt32) (rev : Bytes) (line : UInt32) : Passes (.text start rev) line (b :: t) := by
  have ht := h t (Nat.le_refl _)
  by_cases hquote : b = 34
  · subst hquote
    exact passes_cons (t := ⟨.text rev.reverse, start⟩) (by simp) (ht.between line) fun rest => by
      rw [List.cons_append, scanFrom_textEnd]
  by_cases hnewline : b = 10
  · subst hnewline
    exact passes_bad fun rest => ⟨_, _, rfl⟩
  by_cases hescape : b = 92
  · subst hescape
    exact text_escape h start rev line
  · refine passes_skip (ht.text start (b :: rev) line) fun rest => ?_
    rw [List.cons_append, scanFrom.eq_def]
    split <;> simp_all

theorem passesAll (s : Bytes) : PassesAll s := by
  induction hn : s.length using Nat.strongRecOn generalizing s with
  | ind n ih =>
    cases s with
    | nil => exact passesAll_nil
    | cons b t =>
      have hshort : ∀ u, u.length ≤ t.length → PassesAll u := by
        intro u hu
        refine ih u.length ?_ u rfl
        rw [← hn, List.length_cons]
        omega
      have ht := hshort t (Nat.le_refl _)
      exact ⟨ht.between_cons, ht.remark_cons, PassesAll.text_cons hshort,
        fun rev line _ => ht.word_cons rev line⟩

/-- Lines that are read behind any other text are read as they are by themselves. -/
theorem read_behind {s : Bytes} {ls : List Line} {ns : List SourceForm} (h : Line.areReadable ls)
    (hread : read (s ++ 10 :: Line.renderAll 0 ls) = .ok ns) :
    ∃ before behind, ns = before ++ behind ∧ SourceForm.forms behind = Line.formsAll ls := by
  rcases (passesAll s).between 1 ([], []) with ⟨⟨lists, done⟩, line, hpasses⟩ | hfails
  · obtain ⟨line', ns', hns', hthrough⟩ := readsThrough_lines 0 line ls h
    have hend : resume (pushAll ns' (lists, done)) (scanFrom .between line' []) = .ok ns := by
      have hthrough := hthrough (lists, done) []
      rw [List.append_nil] at hthrough
      rw [← hthrough, ← hpasses]
      exact hread
    cases lists with
    | nil =>
      rw [pushAll_done] at hend
      have hns : (ns'.reverse ++ done).reverse = ns := Except.ok.inj hend
      refine ⟨done.reverse, ns', ?_, hns'⟩
      rw [← hns, List.reverse_append, List.reverse_reverse]
    | cons o outer =>
      rw [pushAll_open] at hend
      cases hend
  · obtain ⟨f, hf⟩ := hfails (Line.renderAll 0 ls)
    cases hf.symm.trans hread

/-! ## Forms without their lines -/

/-- Reading does not go beyond the end of a text or a mistake. -/
def ends : TokenKind → Bool
  | .finish | .bad _ => true
  | _ => false

/-- The same mode, with a quoted text started on a line. -/
def started (start : UInt32) : Mode → Mode
  | .text _ rev => .text start rev
  | mode => mode

/-- Where a text starts shows in the lines of its tokens only. -/
theorem map_kind_scanFrom (mode : Mode) (line line' start : UInt32) (s : Bytes) :
    (scanFrom (started start mode) line' s).map kind = (scanFrom mode line s).map kind := by
  fun_induction scanFrom mode line s generalizing line' start with
  | case1 | case2 | case3 | case4 | case18 | case19 => rfl
  | case20 _ rev line a rest b h ih =>
    rw [started, scanFrom_escaped h]
    exact ih line' start
  | case10 | case21 | case22 | case23 | case24 => simp_all [started, scanFrom]
  | _ =>
    rename_i ih
    simp only [started] at ih ⊢
    simp only [scanFrom, *, if_true, Bool.false_eq_true, if_false, List.map_cons]
    first
    | exact ih _ start
    | exact congrArg _ (ih _ start)

theorem exists_ends (mode : Mode) (line : UInt32) (s : Bytes) :
    ∃ t ∈ scanFrom mode line s, ends t.kind := by
  fun_induction scanFrom mode line s <;> simp_all [ends]

/-- The forms of a text without their lines, if it is read. -/
def reading (s : Bytes) : Option (List Form) := (read s).toOption.map SourceForm.forms

/-- Put a form into the innermost list. -/
def put (f : Form) : List (List Form) → List (List Form)
  | [] => []
  | l :: outer => (f :: l) :: outer

/-- Read on without lines, given the open lists from the innermost on and behind them the finished
forms, all of them in reverse. -/
def formsFrom : List (List Form) → List TokenKind → Option (List Form)
  | lists, .opening :: rest => formsFrom ([] :: lists) rest
  | l :: o :: outer, .closing :: rest => formsFrom (put (.list l.reverse) (o :: outer)) rest
  | lists, .word w :: rest => formsFrom (put (.atom w) lists) rest
  | lists, .text c :: rest => formsFrom (put (.text c) lists) rest
  | [done], .finish :: _ => some done.reverse
  | _, _ => none

/-- How far the reader has come, without lines. -/
def levels (p : Progress) : List (List Form) :=
  p.1.map (fun o => SourceForm.forms o.rev) ++ [SourceForm.forms p.2]

theorem levels_push (f : SourceForm) (lists : List OpenList) (done : List SourceForm) :
    levels (push f lists done) = put f.form (levels (lists, done)) := by
  cases lists <;> rfl

theorem forms_reverse (fs : List SourceForm) :
    SourceForm.forms fs.reverse = (SourceForm.forms fs).reverse := by
  rw [SourceForm.forms_eq_map, SourceForm.forms_eq_map, List.map_reverse]

/-- What is read does not depend on lines. -/
theorem forms_resume (p : Progress) {tokens : List Token} (h : ∃ t ∈ tokens, ends t.kind) :
    (resume p tokens).toOption.map SourceForm.forms = formsFrom (levels p) (tokens.map kind) := by
  induction tokens generalizing p with
  | nil => simp at h
  | cons t tokens ih =>
    obtain ⟨lists, done⟩ := p
    obtain ⟨kind, line⟩ := t
    have hrest (hkind : ends kind = false) : ∃ t ∈ tokens, ends t.kind := by
      obtain ⟨t, ht, hends⟩ := h
      rcases List.mem_cons.mp ht with rfl | ht
      · cases hkind.symm.trans hends
      · exact ⟨t, ht, hends⟩
    cases kind with
    | opening => exact ih (⟨line, []⟩ :: lists, done) (hrest rfl)
    | closing =>
      cases lists with
      | nil => rfl
      | cons o outer =>
        refine (ih (push (.list o.line o.rev.reverse) outer done) (hrest rfl)).trans ?_
        rw [levels_push, SourceForm.form, forms_reverse]
        cases outer <;> rfl
    | word w =>
      refine (ih (push (.atom line w) lists done) (hrest rfl)).trans ?_
      rw [levels_push]
      cases lists <;> rfl
    | text c =>
      refine (ih (push (.text line c) lists done) (hrest rfl)).trans ?_
      rw [levels_push]
      cases lists <;> rfl
    | finish =>
      cases lists with
      | nil => exact congrArg some (forms_reverse done)
      | cons o outer => cases outer <;> rfl
    | bad m => cases lists <;> rfl

/-- Forms that are finished stand in front of what follows. -/
theorem formsFrom_done (lists : List (List Form)) (done before : List Form) (ks : List TokenKind) :
    formsFrom (lists ++ [done ++ before]) ks
      = (formsFrom (lists ++ [done]) ks).map (before.reverse ++ ·) := by
  induction ks generalizing lists done with
  | nil => cases lists <;> rfl
  | cons k ks ih =>
    cases k with
    | opening => exact ih ([] :: lists) done
    | closing =>
      rcases lists with _ | ⟨l, _ | ⟨o, outer⟩⟩
      · rfl
      · exact ih [] (.list l.reverse :: done)
      · exact ih ((.list l.reverse :: o) :: outer) done
    | word w =>
      cases lists with
      | nil => exact ih [] (.atom w :: done)
      | cons l outer => exact ih ((.atom w :: l) :: outer) done
    | text c =>
      cases lists with
      | nil => exact ih [] (.text c :: done)
      | cons l outer => exact ih ((.text c :: l) :: outer) done
    | finish =>
      cases lists with
      | nil => exact congrArg some List.reverse_append
      | cons l outer => cases outer <;> rfl
    | bad m => cases lists <;> rfl

/-- What is read to its end leaves a list open that was open before. -/
theorem formsFrom_open (lists : List (List Form)) (done : List Form) {fs : List Form}
    {ks : List TokenKind} (h : formsFrom (lists ++ [done]) ks = some fs) (o l : List Form)
    (outer : List (List Form)) : formsFrom (lists ++ (done ++ o) :: l :: outer) ks = none := by
  induction ks generalizing lists done with
  | nil => cases lists <;> cases h
  | cons k ks ih =>
    cases k with
    | opening => exact ih ([] :: lists) done h
    | closing =>
      rcases lists with _ | ⟨l, _ | ⟨o, outer⟩⟩
      · cases h
      · exact ih [] (.list l.reverse :: done) h
      · exact ih ((.list l.reverse :: o) :: outer) done h
    | word w =>
      cases lists with
      | nil => exact ih [] (.atom w :: done) h
      | cons l outer => exact ih ((.atom w :: l) :: outer) done h
    | text c =>
      cases lists with
      | nil => exact ih [] (.text c :: done) h
      | cons l outer => exact ih ((.text c :: l) :: outer) done h
    | finish =>
      cases lists with
      | nil => rfl
      | cons l outer => cases outer <;> cases h
    | bad m => cases lists <;> cases h

/-- Where a text stands among others does not show in its forms. -/
theorem forms_resume_scanFrom (p : Progress) (line : UInt32) (s : Bytes) :
    (resume p (scanFrom .between line s)).toOption.map SourceForm.forms
      = formsFrom (levels p) ((scan s).map kind) := by
  rw [forms_resume p (exists_ends _ _ _)]
  exact congrArg _ (map_kind_scanFrom .between 1 line 0 s)

theorem reading_eq (s : Bytes) : reading s = formsFrom [[]] ((scan s).map kind) :=
  forms_resume_scanFrom ([], []) 1 s

/-- Behind whole lines that are read by themselves, a text is read as it is by itself. Behind
others, a text that is read by itself is not read. -/
theorem reading_behind (t s : Bytes) :
    (∀ before, reading (t ++ [10]) = some before →
      reading (t ++ 10 :: s) = (reading s).map (before ++ ·))
    ∧ (reading (t ++ [10]) = none → reading s ≠ none → reading (t ++ 10 :: s) = none) := by
  rcases (passesAll t).between 1 ([], []) with ⟨p, line, hpasses⟩ | hfails
  · have hreading (rest : Bytes) :
        reading (t ++ 10 :: rest) = formsFrom (levels p) ((scan rest).map kind) := by
      rw [← forms_resume_scanFrom p line rest, ← hpasses]
      rfl
    obtain ⟨lists, done⟩ := p
    rw [hreading, hreading]
    cases lists with
    | nil =>
      refine ⟨fun before hbefore => ?_, fun hnone => nomatch hnone⟩
      obtain rfl : (SourceForm.forms done).reverse = before := Option.some.inj hbefore
      rw [reading_eq]
      exact formsFrom_done [] [] (SourceForm.forms done) _
    | cons o outer =>
      obtain ⟨l, rest, hlevels⟩ : ∃ l rest,
          levels (o :: outer, done) = SourceForm.forms o.rev :: l :: rest := by
        cases outer <;> exact ⟨_, _, rfl⟩
      rw [hlevels]
      refine ⟨fun before hbefore => (nomatch hbefore), fun _ hs => ?_⟩
      obtain ⟨fs, hfs⟩ := Option.ne_none_iff_exists'.mp hs
      rw [reading_eq] at hfs
      exact formsFrom_open [] [] hfs (SourceForm.forms o.rev) l rest
  · have hnone (rest : Bytes) : reading (t ++ 10 :: rest) = none := by
      obtain ⟨f, hf⟩ := hfails rest
      have hread : read (t ++ 10 :: rest) = .error f := hf
      rw [reading, hread]
      rfl
    rw [hnone, hnone]
    exact ⟨fun before hbefore => (nomatch hbefore), fun _ _ => rfl⟩

end Script

end WastForge
