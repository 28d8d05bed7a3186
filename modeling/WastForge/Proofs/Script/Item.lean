import Mathlib
import WastForge.Proofs.Branch.Script
import WastForge.Proofs.Emit.Plain

/-!
# Items of a module

What the items of a module say, and how they are written. A module whose items are written this way
is read back: its functions are told apart by their names, and its exports name some of them.
-/

namespace WastForge.Script

/-- A function as it is written: what it declares, and its code. -/
structure FuncText where
  name : Bytes
  params : List (Bytes × Keyword) := []
  locals : List (Bytes × Keyword) := []
  result : Option Keyword := none
  body : List Form := []

/-- An item of a module. -/
inductive Item where
  | func (t : FuncText)
  | export_ (name target : Bytes)
  /-- A function from outside with the types of its parameters. -/
  | import_ (name module field : Bytes) (params : List Keyword)
  | memory (size : UInt32) (segments : List Segment)

/-- The declarations of parameters or locals. -/
def declarations (word : Bytes) (l : List (Bytes × Keyword)) : List Form :=
  l.map fun d => .words [word, d.1, d.2.text]

/-- The declaration of a result. -/
def resultDeclaration (result : Option Keyword) : List Form :=
  (result.map fun kw => Form.words ["result", kw.text]).toList

/-- How a segment is written. -/
def Segment.form (s : Segment) : Form :=
  .list [.atom "segment", .atom (Bytes.ofNat s.offset.toNat), .text s.data]

/-- How a function is written. -/
def FuncText.form (t : FuncText) : Form :=
  .list (.atom "func" :: .atom t.name :: (declarations "param" t.params
    ++ (declarations "local" t.locals ++ (resultDeclaration t.result ++ t.body))))

namespace Item

/-- How an item is written. -/
def form : Item → Form
  | func t => t.form
  | export_ name target => .list [.atom "export", .text name, .atom target]
  | import_ name module field params =>
    .list (.atom "import" :: .atom name :: .text module :: .text field
      :: if params.isEmpty then [] else [.words ("param" :: params.map Keyword.text)])
  | memory size segments =>
    let n := Bytes.ofNat size.toNat
    .list (.atom "memory" :: .atom n :: .atom n :: segments.map Segment.form)

def func? : Item → Option FuncText
  | func t => some t
  | _ => none

def export? : Item → Option (Bytes × Bytes)
  | export_ name target => some (name, target)
  | _ => none

def import? : Item → Option Import
  | import_ name module field params => some ⟨name, module, field, params.length⟩
  | _ => none

def memory? : Item → Option (UInt32 × List Segment)
  | memory size segments => some (size, segments)
  | _ => none

/-- The item makes sense by itself: the code of a function declares nothing, and the segments of a
memory fit into it. -/
def IsSound : Item → Prop
  | func t => ∀ f ∈ t.body, f.IsInstruction
  | memory size segments => ∀ s ∈ segments, s.offset.toNat + s.data.length ≤ size.toNat
  | _ => True

end Item

/-- The function is the one that is written. -/
structure Function.Is (fn : Function) (t : FuncText) : Prop where
  name : fn.name = t.name
  params : fn.params = t.params.map (·.1)
  locals : fn.locals = t.locals.map fun d => (d.1, .ofName d.2.text)
  hasResult : fn.hasResult = t.result.isSome
  body : SourceForm.forms fn.body = t.body

section

open SourceForm

variable {fn : Function} {ns rest : List SourceForm}

theorem forms_words {n : SourceForm} {w : Bytes} {ws : List Bytes} (h : n.form = .words (w :: ws)) :
    n.head = w ∧ forms n.args = ws.map .atom := by
  obtain ⟨line, items, rfl, hitems⟩ := eq_list_of_form h
  obtain ⟨l, rest, rfl, hrest⟩ := forms_eq_atom_cons hitems
  exact ⟨rfl, hrest⟩

theorem functionFrom_params {l : List (Bytes × Keyword)} (h : forms ns = declarations "param" l) :
    functionFrom fn (ns ++ rest)
      = functionFrom { fn with params := fn.params ++ l.map (·.1) } rest := by
  induction l generalizing ns fn with
  | nil =>
    obtain rfl := forms_eq_nil h
    simp
  | cons d l ih =>
    obtain ⟨n, ns, rfl, hn, hns⟩ := forms_eq_cons h
    obtain ⟨hhead, hargs⟩ := forms_words hn
    obtain ⟨_, _, hname, htype⟩ := forms_eq_atom_cons hargs
    obtain ⟨_, _, rfl, hnil⟩ := forms_eq_atom_cons htype
    obtain rfl := forms_eq_nil hnil
    rw [List.cons_append, functionFrom, hhead, hname]
    simp only [beq_self_eq_true, if_true, SourceForm.word]
    rw [ih hns]
    simp

theorem functionFrom_locals {l : List (Bytes × Keyword)} (h : forms ns = declarations "local" l) :
    functionFrom fn (ns ++ rest)
      = functionFrom { fn with
          locals := fn.locals ++ l.map fun d => (d.1, .ofName d.2.text) } rest := by
  induction l generalizing ns fn with
  | nil =>
    obtain rfl := forms_eq_nil h
    simp
  | cons d l ih =>
    obtain ⟨n, ns, rfl, hn, hns⟩ := forms_eq_cons h
    obtain ⟨hhead, hargs⟩ := forms_words hn
    obtain ⟨_, _, hname, htype⟩ := forms_eq_atom_cons hargs
    obtain ⟨_, _, rfl, hnil⟩ := forms_eq_atom_cons htype
    obtain rfl := forms_eq_nil hnil
    have hne : (("local" : Bytes) == "param") = false := by decide
    rw [List.cons_append, functionFrom, hhead, hname]
    simp only [hne, beq_self_eq_true, if_true, SourceForm.word]
    rw [if_neg Bool.false_ne_true, ih hns]
    simp

theorem Keyword.text_ne_nil (kw : Keyword) : kw.text.isEmpty = false := by
  cases kw <;> rfl

theorem functionFrom_result {result : Option Keyword} (hfn : fn.hasResult = false)
    (h : forms ns = resultDeclaration result) :
    functionFrom fn (ns ++ rest) = functionFrom { fn with hasResult := result.isSome } rest := by
  cases result with
  | none =>
    obtain rfl := forms_eq_nil h
    obtain ⟨name, params, locals, hasResult, body⟩ := fn
    obtain rfl : hasResult = false := hfn
    rfl
  | some kw =>
    obtain ⟨n, ns, rfl, hn, hnil⟩ := forms_eq_cons h
    obtain rfl := forms_eq_nil hnil
    obtain ⟨hhead, hargs⟩ := forms_words hn
    obtain ⟨_, _, htype, hnil⟩ := forms_eq_atom_cons hargs
    obtain rfl := forms_eq_nil hnil
    have hne : (("result" : Bytes) == "param") = false
        ∧ (("result" : Bytes) == "local") = false := by
      decide
    rw [List.cons_append, functionFrom, hhead, htype]
    simp only [hne.1, hne.2, beq_self_eq_true, if_true, SourceForm.word, Keyword.text_ne_nil]
    rfl

theorem head_of_instruction {n : SourceForm} (h : n.form.IsInstruction) :
    n.head ∉ Form.declaring := by
  cases n with
  | list line items =>
    cases items with
    | nil => exact absurd h id
    | cons first items =>
      cases first with
      | atom l w => exact h
      | _ => exact absurd h id
  | _ => exact absurd h id

/-- Code ends the declarations. -/
theorem functionFrom_body (hfn : fn.body = []) (h : ∀ f ∈ forms ns, f.IsInstruction) :
    functionFrom fn ns = .ok { fn with body := ns } := by
  cases ns with
  | nil => rw [functionFrom, ← hfn]
  | cons n ns =>
    have hhead := head_of_instruction (h _ List.mem_cons_self)
    have hne : ∀ w ∈ Form.declaring, (n.head == w) = false := by
      intro w hw
      rw [beq_eq_false_iff_ne]
      rintro rfl
      exact hhead hw
    rw [functionFrom]
    simp only [hne "param" (by decide), hne "local" (by decide), hne "result" (by decide)]
    rfl

end

/-- A function that is written is read back. -/
theorem function_of_form {n : SourceForm} {t : FuncText} (hn : n.form = t.form)
    (ht : ∀ f ∈ t.body, f.IsInstruction) : ∃ fn, function n = .ok fn ∧ fn.Is t := by
  obtain ⟨line, items, rfl, hitems⟩ := SourceForm.eq_list_of_form hn
  obtain ⟨_, named, rfl, hnamed⟩ := SourceForm.forms_eq_atom_cons hitems
  obtain ⟨_, parts, rfl, hparts⟩ := SourceForm.forms_eq_atom_cons hnamed
  have hmap : parts.map SourceForm.form = _ := (SourceForm.forms_eq_map parts).symm.trans hparts
  obtain ⟨ps, parts, rfl, hps, hparts⟩ := List.map_eq_append_iff.mp hmap
  obtain ⟨ls, parts, rfl, hls, hparts⟩ := List.map_eq_append_iff.mp hparts
  obtain ⟨rs, body, rfl, hrs, hbody⟩ := List.map_eq_append_iff.mp hparts
  rw [← SourceForm.forms_eq_map] at hps hls hrs hbody
  refine ⟨{ name := t.name, params := t.params.map (·.1),
            locals := t.locals.map fun d => (d.1, .ofName d.2.text),
            hasResult := t.result.isSome, body := body }, ?_, ⟨rfl, rfl, rfl, rfl, hbody⟩⟩
  show functionFrom { name := t.name } (ps ++ (ls ++ (rs ++ body))) = _
  rw [functionFrom_params hps, functionFrom_locals hls, functionFrom_result rfl hrs,
    functionFrom_body rfl (by rw [hbody]; exact ht)]
  rfl

theorem text_of_form {n : SourceForm} {t : Bytes} (h : n.form = .text t) :
    ∃ line, n = .text line t :=
  SourceForm.eq_text_of_form (show (SourceForm.text 0 t).form = n.form from h.symm)

theorem size?_of_form {n : SourceForm} {size : UInt32}
    (h : n.form = .atom (Bytes.ofNat size.toNat)) : size? n = some size := by
  obtain ⟨line, rfl⟩ := SourceForm.eq_atom_of_form h
  have hlt := size.toNat_lt
  have hread : Radix.natIn? 10 Radix.maxWord (Bytes.ofNat size.toNat) = some size.toNat := by
    have hmax : size.toNat ≤ Radix.maxWord := by
      unfold Radix.maxWord
      omega
    rw [Radix.natIn?, if_neg (by simp [Bytes.ofNat_ne_nil]), Radix.digits?_ofNat]
    simp [hmax]
  show ((Radix.natIn? 10 Radix.maxWord (Bytes.ofNat size.toNat)).filter _).map UInt32.ofNat = _
  rw [hread]
  simp [hlt]

theorem segments_of_forms {size : UInt32} {ns : List SourceForm} {l : List Segment}
    (h : SourceForm.forms ns = l.map Segment.form)
    (hl : ∀ s ∈ l, s.offset.toNat + s.data.length ≤ size.toNat) :
    segments size ns = .ok l := by
  induction l generalizing ns with
  | nil =>
    obtain rfl := SourceForm.forms_eq_nil h
    rfl
  | cons s l ih =>
    rw [List.forall_mem_cons] at hl
    obtain ⟨n, ns, rfl, hn, hns⟩ := SourceForm.forms_eq_cons h
    obtain ⟨line, items, rfl, hitems⟩ := SourceForm.eq_list_of_form hn
    obtain ⟨_, args, rfl, hargs⟩ := SourceForm.forms_eq_atom_cons hitems
    obtain ⟨offset, args, rfl, hoffset, hargs⟩ := SourceForm.forms_eq_cons hargs
    obtain ⟨data, args, rfl, hdata, hnil⟩ := SourceForm.forms_eq_cons hargs
    obtain rfl := SourceForm.forms_eq_nil hnil
    obtain ⟨_, rfl⟩ := text_of_form hdata
    rw [segments]
    simp only [SourceForm.head, SourceForm.word, SourceForm.args, beq_self_eq_true,
      size?_of_form hoffset, ih hns hl.2]
    rw [if_neg (Nat.not_lt.mpr hl.1)]
    rfl

theorem memoryOf_of_form {n : SourceForm} {size : UInt32} {l : List Segment}
    (h : n.form = (Item.memory size l).form)
    (hl : ∀ s ∈ l, s.offset.toNat + s.data.length ≤ size.toNat) :
    n.head = "memory" ∧ memoryOf n = .ok (size, l) := by
  obtain ⟨line, items, rfl, hitems⟩ := SourceForm.eq_list_of_form h
  obtain ⟨_, args, rfl, hargs⟩ := SourceForm.forms_eq_atom_cons hitems
  obtain ⟨first, args, rfl, hfirst, hargs⟩ := SourceForm.forms_eq_cons hargs
  obtain ⟨second, args, rfl, _, hsegments⟩ := SourceForm.forms_eq_cons hargs
  refine ⟨rfl, ?_⟩
  rw [memoryOf]
  simp only [SourceForm.args, size?_of_form hfirst, segments_of_forms hsegments hl]
  rfl

theorem importOf_of_form {n : SourceForm} {name module field : Bytes} {params : List Keyword}
    (h : n.form = (Item.import_ name module field params).form) :
    n.head = "import" ∧ importOf n = .ok ⟨name, module, field, params.length⟩ := by
  obtain ⟨line, items, rfl, hitems⟩ := SourceForm.eq_list_of_form h
  obtain ⟨_, named, rfl, hnamed⟩ := SourceForm.forms_eq_atom_cons hitems
  obtain ⟨_, texts, rfl, htexts⟩ := SourceForm.forms_eq_atom_cons hnamed
  obtain ⟨x, more, rfl, hx, hmore⟩ := SourceForm.forms_eq_cons htexts
  obtain ⟨_, rfl⟩ := text_of_form hx
  obtain ⟨y, args, rfl, hy, hargs⟩ := SourceForm.forms_eq_cons hmore
  obtain ⟨_, rfl⟩ := text_of_form hy
  refine ⟨rfl, ?_⟩
  rw [importOf]
  simp only [SourceForm.args.eq_1, SourceForm.word.eq_1]
  cases params with
  | nil =>
    obtain rfl := SourceForm.forms_eq_nil hargs
    rfl
  | cons kw params =>
    obtain ⟨z, args, rfl, hz, hnil⟩ := SourceForm.forms_eq_cons hargs
    obtain rfl := SourceForm.forms_eq_nil hnil
    obtain ⟨hhead, hwords⟩ := forms_words hz
    have hlength : z.args.length = (kw :: params).length := by
      have := congrArg List.length hwords
      simpa [SourceForm.forms_eq_map] using this
    have hfilter : [z].filter (fun g => g.head == ("param" : Bytes)) = [z] :=
      List.filter_cons_of_pos (beq_iff_eq.mpr hhead)
    rw [hfilter, List.flatMap_singleton, hlength]

/-- What was added to a module are the items so far. -/
structure Added (m : Module) (pending : List PendingExport) (items : List Item) : Prop where
  funcs : List.Forall₂ Function.Is m.funcs (items.filterMap Item.func?)
  exports : m.exports = []
  pending : pending.map (fun e => (e.name, e.target)) = items.filterMap Item.export?
  imports : m.imports = items.filterMap Item.import?
  memory : m.memory = ((items.filterMap Item.memory?).getLast?.map (·.1)).getD 0
  segments : m.segments = (items.filterMap Item.memory?).flatMap (·.2)

/-- The names of the functions among items. -/
def funcNames (items : List Item) : List Bytes := (items.filterMap Item.func?).map (·.name)

theorem name_of_is {fns : List Function} {ts : List FuncText}
    (h : List.Forall₂ Function.Is fns ts) : fns.map (·.name) = ts.map (·.name) := by
  induction h with
  | nil => rfl
  | cons ht _ ih => rw [List.map_cons, List.map_cons, ht.name, ih]

theorem filterMap_concat_none {α β : Type} {f : α → Option β} {l : List α} {a : α}
    (h : f a = none) : (l ++ [a]).filterMap f = l.filterMap f := by
  rw [List.filterMap_append, List.filterMap_cons_none h, List.filterMap_nil, List.append_nil]

theorem filterMap_concat_some {α β : Type} (f : α → Option β) {l : List α} {a : α} {b : β}
    (h : f a = some b) : (l ++ [a]).filterMap f = l.filterMap f ++ [b] := by
  rw [List.filterMap_append, List.filterMap_cons_some h, List.filterMap_nil]

theorem head_of_form {n : SourceForm} {w : Bytes} {fs : List Form}
    (h : n.form = .list (.atom w :: fs)) : n.head = w := by
  obtain ⟨line, items, rfl, hitems⟩ := SourceForm.eq_list_of_form h
  obtain ⟨_, args, rfl, _⟩ := SourceForm.forms_eq_atom_cons hitems
  rfl

/-- Adding one more item. -/
theorem Added.step {m : Module} {pending : List PendingExport} {done : List Item}
    {n : SourceForm} {i : Item} (h : Added m pending done) (hn : n.form = i.form)
    (hi : i.IsSound) (hfresh : ∀ t, i = .func t → t.name ∉ funcNames done)
    (rest : List SourceForm) :
    ∃ m' pending', addItems m pending (n :: rest) = addItems m' pending' rest
      ∧ Added m' pending' (done ++ [i]) := by
  cases i with
  | func t =>
    obtain ⟨fn, hfn, his⟩ := function_of_form hn hi
    have hnone : m.func? fn.name = none := by
      rw [Module.func?, List.find?_eq_none]
      intro g hg hname
      refine hfresh t rfl ?_
      rw [funcNames, ← name_of_is h.funcs, ← his.name, ← beq_iff_eq.mp hname]
      exact List.mem_map_of_mem hg
    refine ⟨{ m with funcs := m.funcs ++ [fn] }, pending, ?_, ?_, h.exports, ?_, ?_, ?_, ?_⟩
    · rw [addItems, head_of_form hn, hfn]
      simp only [beq_self_eq_true, if_true]
      show (if (m.func? fn.name).isSome then _ else _) = _
      rw [hnone, Option.isSome_none, if_neg Bool.false_ne_true]
    · rw [filterMap_concat_some Item.func? rfl]
      exact List.rel_append h.funcs (.cons his .nil)
    all_goals rw [filterMap_concat_none rfl]
    exacts [h.pending, h.imports, h.memory, h.segments]
  | export_ name target =>
    obtain ⟨line, items, rfl, hitems⟩ := SourceForm.eq_list_of_form hn
    obtain ⟨_, args, rfl, hargs⟩ := SourceForm.forms_eq_atom_cons hitems
    obtain ⟨x, targets, rfl, hx, htargets⟩ := SourceForm.forms_eq_cons hargs
    obtain ⟨_, rfl⟩ := text_of_form hx
    obtain ⟨_, _, rfl, hnil⟩ := SourceForm.forms_eq_atom_cons htargets
    obtain rfl := SourceForm.forms_eq_nil hnil
    refine ⟨m, pending ++ [⟨name, target, line⟩], rfl, ?_, h.exports, ?_, ?_, ?_, ?_⟩
    · rw [filterMap_concat_none rfl]
      exact h.funcs
    · rw [filterMap_concat_some Item.export? rfl, List.map_append, h.pending]
      rfl
    all_goals rw [filterMap_concat_none rfl]
    exacts [h.imports, h.memory, h.segments]
  | import_ name module field params =>
    obtain ⟨hhead, himport⟩ := importOf_of_form hn
    refine ⟨{ m with imports := m.imports ++ [⟨name, module, field, params.length⟩] }, pending,
      ?_, ?_, h.exports, ?_, ?_, ?_, ?_⟩
    · rw [addItems, hhead, himport]
      rfl
    · rw [filterMap_concat_none rfl]
      exact h.funcs
    · rw [filterMap_concat_none rfl]
      exact h.pending
    · rw [filterMap_concat_some Item.import? rfl, h.imports]
    all_goals rw [filterMap_concat_none rfl]
    exacts [h.memory, h.segments]
  | memory size l =>
    obtain ⟨hhead, hmemory⟩ := memoryOf_of_form hn hi
    refine ⟨{ m with memory := size, segments := m.segments ++ l }, pending, ?_, ?_, h.exports,
      ?_, ?_, ?_, ?_⟩
    · rw [addItems, hhead, hmemory]
      rfl
    · rw [filterMap_concat_none rfl]
      exact h.funcs
    · rw [filterMap_concat_none rfl]
      exact h.pending
    · rw [filterMap_concat_none rfl]
      exact h.imports
    · rw [filterMap_concat_some Item.memory? rfl, List.getLast?_concat]
      rfl
    · rw [filterMap_concat_some Item.memory? rfl, List.flatMap_append, h.segments]
      simp

/-- Adding all items, whose functions have names of their own. -/
theorem Added.run {m : Module} {pending : List PendingExport} {done items : List Item}
    {ns : List SourceForm} (h : Added m pending done)
    (hns : SourceForm.forms ns = items.map Item.form) (hsound : ∀ i ∈ items, i.IsSound)
    (hnames : (funcNames (done ++ items)).Nodup) :
    ∃ m' pending', addItems m pending ns = .ok (m', pending')
      ∧ Added m' pending' (done ++ items) := by
  induction items generalizing m pending done ns with
  | nil =>
    obtain rfl := SourceForm.forms_eq_nil hns
    refine ⟨m, pending, rfl, ?_⟩
    rw [List.append_nil]
    exact h
  | cons i items ih =>
    rw [List.forall_mem_cons] at hsound
    obtain ⟨n, ns, rfl, hn, hns⟩ := SourceForm.forms_eq_cons hns
    have hfresh : ∀ t, i = .func t → t.name ∉ funcNames done := by
      rintro t rfl hmem
      rw [funcNames, List.filterMap_append, List.map_append, List.nodup_append] at hnames
      have ht : t.name ∈ ((Item.func t :: items).filterMap Item.func?).map (·.name) :=
        List.mem_cons_self
      exact hnames.2.2 _ hmem _ ht rfl
    obtain ⟨m₁, pending₁, hstep, h₁⟩ := h.step hn hsound.1 hfresh ns
    rw [hstep, List.append_cons]
    rw [List.append_cons] at hnames
    exact ih h₁ hns hsound.2 hnames

theorem func?_of_is {fns : List Function} {ts : List FuncText} {t : FuncText}
    (h : List.Forall₂ Function.Is fns ts) (hnames : (ts.map (·.name)).Nodup) (ht : t ∈ ts) :
    ∃ fn, fns.find? (·.name == t.name) = some fn ∧ fn.Is t := by
  induction h with
  | nil => cases ht
  | @cons fn t' fns ts his hrest ih =>
    rw [List.map_cons, List.nodup_cons] at hnames
    rcases List.mem_cons.mp ht with rfl | hmem
    · refine ⟨fn, ?_, his⟩
      rw [List.find?_cons, his.name, beq_self_eq_true]
    · obtain ⟨fn', hfn', his'⟩ := ih hnames.2 hmem
      refine ⟨fn', ?_, his'⟩
      have hne : (fn.name == t.name) = false := by
        rw [beq_eq_false_iff_ne, his.name]
        intro heq
        rw [heq] at hnames
        exact hnames.1 (List.mem_map_of_mem hmem)
      rw [List.find?_cons, hne, hfn']

/-- An export is a function of the module under its public name. -/
def IsExport (m : Module) (e : Bytes × Function) (w : Bytes × Bytes) : Prop :=
  e.1 = w.1 ∧ m.func? w.2 = some e.2

theorem resolveExports_of_known {m : Module} {pending : List PendingExport}
    (h : ∀ e ∈ pending, (m.func? e.target).isSome) :
    ∃ exports, resolveExports m pending = .ok { m with exports := m.exports ++ exports }
      ∧ List.Forall₂ (IsExport m) exports (pending.map fun e => (e.name, e.target)) := by
  induction pending generalizing m with
  | nil =>
    refine ⟨[], ?_, .nil⟩
    rw [List.append_nil]
    rfl
  | cons e pending ih =>
    rw [List.forall_mem_cons] at h
    obtain ⟨fn, hfn⟩ := Option.isSome_iff_exists.mp h.1
    obtain ⟨exports, hresolve, hexports⟩ :=
      ih (m := { m with exports := m.exports ++ [(e.name, fn)] }) h.2
    refine ⟨(e.name, fn) :: exports, ?_, .cons ⟨rfl, hfn⟩ hexports⟩
    rw [resolveExports, hfn]
    simp only
    rw [hresolve, List.append_assoc]
    rfl

/-- The module has the items. -/
structure Module.Has (m : Module) (items : List Item) : Prop where
  func : ∀ t, Item.func t ∈ items → ∃ fn, m.func? t.name = some fn ∧ fn.Is t
  funcs : List.Forall₂ Function.Is m.funcs (items.filterMap Item.func?)
  exports : List.Forall₂ (IsExport m) m.exports (items.filterMap Item.export?)
  imports : m.imports = items.filterMap Item.import?
  memory : m.memory = ((items.filterMap Item.memory?).getLast?.map (·.1)).getD 0
  segments : m.segments = (items.filterMap Item.memory?).flatMap (·.2)

/-- Items that make a module: each is sound, functions have names of their own, and exports name
functions. -/
structure AreSound (items : List Item) : Prop where
  each : ∀ i ∈ items, i.IsSound
  names : (funcNames items).Nodup
  exports : ∀ w ∈ items.filterMap Item.export?, w.2 ∈ funcNames items

/-- A module that is written from sound items is read back. -/
theorem moduleOf_of_items {n : SourceForm} {items : List Item}
    (hn : n.form = .list (.atom "module" :: items.map Item.form)) (h : AreSound items) :
    ∃ m, moduleOf n = .ok m ∧ m.Has items := by
  obtain ⟨line, parts, rfl, hparts⟩ := SourceForm.eq_list_of_form hn
  obtain ⟨_, ns, rfl, hns⟩ := SourceForm.forms_eq_atom_cons hparts
  have hstart : Added {} [] [] := ⟨.nil, rfl, rfl, rfl, rfl, rfl⟩
  obtain ⟨m, pending, hitems, hadded⟩ := hstart.run hns h.each h.names
  rw [List.nil_append] at hadded
  have hfunc : ∀ t ∈ items.filterMap Item.func?, ∃ fn, m.func? t.name = some fn ∧ fn.Is t :=
    fun t ht => func?_of_is hadded.funcs h.names ht
  have hknown : ∀ e ∈ pending, (m.func? e.target).isSome := by
    intro e he
    have hmem : (e.name, e.target) ∈ items.filterMap Item.export? := by
      rw [← hadded.pending]
      exact List.mem_map_of_mem he
    obtain ⟨t, ht, hname⟩ := List.mem_map.mp (h.exports _ hmem)
    obtain ⟨fn, hfn, _⟩ := hfunc t ht
    have htarget : t.name = e.target := hname
    rw [← htarget, hfn]
    rfl
  obtain ⟨exports, hresolve, hexports⟩ := resolveExports_of_known hknown
  refine ⟨{ m with exports := m.exports ++ exports }, ?_, ?_, hadded.funcs, ?_, hadded.imports,
    hadded.memory, hadded.segments⟩
  · show (addItems {} [] ns >>= fun r => resolveExports r.1 r.2) = _
    rw [hitems]
    exact hresolve
  · exact fun t ht => hfunc t (List.mem_filterMap.mpr ⟨_, ht, rfl⟩)
  · rw [← hadded.pending, hadded.exports]
    exact hexports

end WastForge.Script
