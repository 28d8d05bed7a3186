import WastForge.Proofs.Emit.Instance
import WastForge.Proofs.Emit.Slots
import WastForge.Proofs.Integer.Held
import WastForge.Proofs.Machine.Access

/-!
# Strings of a module

A string literal is written as a call that gives the address of its first character. In the memory
that the machine starts with, the characters are found there and the length is found in front of
them.
-/

namespace WastForge

open Emit Script

namespace Eval

variable {env : MachineEnv} {f : Frame} {m : Machine}

/-- The function that gives the address of a string. -/
theorem formEnds_first {s : StringSlot} {fn : Function} (hm : m.plain = m)
    (hfn : env.module.func? (Name.stringFirst s.offset) = some fn) (his : fn.Is (firstText s))
    (hdepth : f.depth < maxCallDepth) :
    FormEnds env f (.words ["call", Name.stringFirst s.offset]) m (.ok (.i32 s.firstChar)) m := by
  have hbody := formEnds_address env ⟨some fn.name, f.depth + 1⟩
    (plain_withLocals hm (startLocals fn [])) s.firstChar
  have hcall := formEnds_call hm hfn his.params hdepth his.hasResult his.body hbody
  exact hcall

/-- The address of the length of a string, from the address of the string. -/
theorem answers_lengthAddress {locals : Locals} {n : UInt32}
    (hn : locals.lookup ("$str" : Bytes) = some (Value.i32 n)) :
    Answers env f locals (.list [.atom "i32.sub", .words ["get_local", "$str"],
      Instruction.intConst .i32 (4 : Nat)]) (.ok (.i32 (n - 4))) := by
  have hhead : Opcode.ofName "i32.sub" = .operation .i32 "sub" := by decide
  have hlocal : Answers env f locals (.words ["get_local", "$str"]) (.ok (.i32 n)) :=
    answers_getLocal hn rfl
  have hsub := answers_binary (fun v w => .ok (.i32 (v.word - w.word))) hhead hlocal
    (fun _ _ => answers_address locals 4) fun v w hv hw => ?_
  · change Answers env f locals _ (.ok (.i32 ((Value.i32 n).word - (Value.i32 4).word))) at hsub
    rwa [Value.word_i32, Value.word_i32] at hsub
  · obtain rfl := Except.ok.inj hv
    obtain rfl := Except.ok.inj hw
    rfl

/-- The function that gives the length of any string, called with the address of one. -/
theorem formEnds_length {a : Arena} {s : StringSlot} {fn : Function} {g : Form} (ha : a.Sound)
    (hs : s ∈ a.strings) (hg : FormEnds env f g m (.ok (.i32 s.firstChar)) m)
    (hmemory : m.memory = a.memory) (hfn : env.module.func? Name.stringLength = some fn)
    (his : fn.Is anyLengthText) (hdepth : f.depth < maxCallDepth) :
    FormEnds env f (.list [.atom "call", .atom Name.stringLength, g]) m
      (.ok (.i32 (UInt32.ofNat s.chars.length))) m := by
  have hlocals : (startLocals fn [.i32 s.firstChar]).lookup ("$str" : Bytes)
      = some (.i32 s.firstChar) := by
    rw [startLocals, his.params, his.locals]
    rfl
  have hback : s.firstChar - 4 = s.offset := UInt32.add_sub_cancel s.offset 4
  have haddr : FormEnds env ⟨some fn.name, f.depth + 1⟩ (.list [.atom "i32.sub",
      .words ["get_local", "$str"], Instruction.intConst .i32 (4 : Nat)])
      { m with locals := startLocals fn [.i32 s.firstChar] } (.ok (.i32 s.offset))
      { m with locals := startLocals fn [.i32 s.firstChar] } := by
    rw [← hback]
    exact (formEnds_of_answers (plain_withLocals hg.plain.1 _)
      fun _ => answers_lengthAddress hlocals).mpr ⟨rfl, rfl⟩
  have hhead : Opcode.ofName "i32.load" = .load .i32 "" := by decide
  have haccess : access .i32 "" = pure ⟨4, false⟩ := rfl
  have hload := formEnds_load hhead haccess haddr
    (by rw [Value.word_i32, hmemory]; exact ha.load_length hs)
  have hcall := formEnds_call_one hg hfn his.params hdepth his.hasResult his.body hload
  have hvalue : loaded .i32 ⟨4, false⟩ (UInt64.ofNat s.chars.length)
      = .i32 (UInt32.ofNat s.chars.length) :=
    congrArg Value.i32 (UInt64.toUInt32_ofNat' s.chars.length)
  rwa [hvalue] at hcall

end Eval

/-- The strings that the bodies of a program have, once its support calls are expanded. -/
def Program.strings (p : Program) : List Bytes := p.mentions.filterMap (Expr.stringContent? p.types)

/-- What has to hold of a string, of the code that its literals are written as and of its address,
in a module and the machine that it starts with. -/
structure Emission.Keeps (e : Emission) (m : Module) (start : Machine) (content : Bytes)
    (call : Form) (address : UInt32) : Prop where
  code : ∀ (env : Env) (want : Bool) (x : Expr), env.program = e.program → env.arena = e.arena →
    x.stringContent? e.program.types = some content → expr env want x = pure (some call)
  first : ∀ (env : MachineEnv) (f : Frame) (s : Machine), env.module = m → f.depth < maxCallDepth →
    s.plain = s → Eval.FormEnds env f call s (.ok (.i32 address)) s
  length : ∀ (env : MachineEnv) (f : Frame) (s : Machine), env.module = m →
    f.depth < maxCallDepth → s.plain = s → s.memory = start.memory →
    Eval.FormEnds env f (.list [.atom "call", .atom Name.stringLength, call]) s
      (.ok (.i32 (UInt32.ofNat (Utf8.runes content).length))) s
  text : start.memory.string address = .ok content
  char : ∀ (i : Nat) (r : Rune), (Utf8.runes content)[i]? = some r → ∃ b : UInt8,
    r = .point b.toNat ∧ start.memory.load (address + UInt32.ofNat i) 1 = .ok b.toUInt64
  above : e.arena.heapSize.toNat + 4 ≤ address.toNat
  inside : address.toNat + (Utf8.runes content).length ≤ start.memory.size.toNat

/-- The strings of a program are kept in the module of its text: each at an address of its own. -/
def Program.KeepsStrings (p : Program) (m : Module) : Prop :=
  ∃ (e : Emission) (start : Machine) (call : Bytes → Form) (address : Bytes → UInt32),
    p.emission? = some e ∧ Machine.start m = .ok start
      ∧ (∀ c ∈ p.strings, e.Keeps m start c (call c) (address c))
      ∧ ∀ c ∈ p.strings, ∀ d ∈ p.strings, address c = address d → c = d

/-- A literal is written as the call that gives the address of its string. -/
theorem Emit.expr_of_stringContent {env : Env} {want : Bool} {x : Expr} {content : Bytes}
    {s : StringSlot} (hs : env.arena.string? content = some s)
    (hx : x.stringContent? env.types = some content) :
    expr env want x = pure (some (.words ["call", Name.stringFirst s.offset])) := by
  cases x with
  | literal a l =>
    have href : stringRef env (.literal a l) content
        = pure (.words ["call", Name.stringFirst s.offset]) := by
      rw [stringRef, hs]
    have hliteral : literal env (.literal a l) l = stringRef env (.literal a l) content := by
      simp only [Expr.stringContent?] at hx
      by_cases hkind : l.kind = .string
      · rw [if_pos hkind] at hx
        rw [literal, hkind, Option.some.inj hx]
      · rw [if_neg hkind] at hx
        obtain ⟨⟨hmissing, hstring⟩, hnil⟩ := Option.ite_none_right_eq_some.mp hx
        have htype : env.types.isString (Expr.literal a l).type = true := hstring
        rcases hmissing with hkind | hkind <;> rw [literal, hkind, ← Option.some.inj hnil] <;>
          exact if_pos htype
    rw [expr, hliteral, href]
    rfl
  | _ => cases hx

namespace Emission

variable {e : Emission} {out : ModuleOutput} {funcs directives : List Line} {m : Module}
variable {texts : List FuncText} {s : StringSlot} {c : Bytes}

/-- Every string of the bodies has a slot. -/
theorem Writes.exists_slot (h : e.Writes out funcs directives) (hc : c ∈ e.program.strings) :
    ∃ s, e.arena.string? c = some s := by
  obtain ⟨x, hx, hcontent⟩ := List.mem_filterMap.mp hc
  rw [Program.mentions, h.expanded] at hx
  obtain ⟨b, hb, hx⟩ := List.mem_flatMap.mp hx
  have hserves := (Arena.comes_ofProgram h.arena).2 b hb x hx
  exact Option.isSome_iff_exists.mp (hserves.string c hcontent)

theorem mem_strings_of_string? (hs : e.arena.string? c = some s) :
    s ∈ e.arena.strings ∧ s.content = c := by
  have hcontent := List.find?_some hs
  exact ⟨List.mem_of_find?_eq_some hs, beq_iff_eq.mp hcontent⟩

/-- A module whose memory has a string has the functions for it. -/
theorem Writes.mem_items (h : e.Writes out funcs directives) (texts : List FuncText)
    (hs : s ∈ e.arena.strings) :
    Item.func (firstText s) ∈ e.items texts ∧ Item.func anyLengthText ∈ e.items texts := by
  have htotal : (e.arena.total != 0) = true := by
    have hle := (h.sound.string s hs).segment_le
    have hstop := (h.sound.string s hs).stop
    refine bne_iff_ne.mpr fun hzero => ?_
    have hend := h.sound.total
    rw [hzero] at hend
    change 0 = e.arena.stop at hend
    omega
  have hmem : ∀ t ∈ stringTexts e.arena, Item.func t ∈ e.items texts := by
    intro t ht
    simp only [Emission.items, moduleItems, htotal, if_true, List.mem_append, List.mem_map]
    exact .inl (.inl (.inr ⟨t, .inl ht, rfl⟩))
  refine ⟨hmem _ ?_, hmem _ (List.mem_append_right _ List.mem_cons_self)⟩
  refine List.mem_append_left _ (List.mem_flatMap.mpr ⟨s, ?_, List.mem_cons_self⟩)
  exact List.mem_mergeSort.mpr hs

/-- The string of a slot is kept. -/
theorem Writes.keeps (h : e.Writes out funcs directives) (hhas : m.Has (e.items texts))
    (hs : e.arena.string? c = some s) :
    e.Keeps m { memory := e.arena.memory } c (.words ["call", Name.stringFirst s.offset])
      s.firstChar := by
  obtain ⟨hmem, rfl⟩ := mem_strings_of_string? hs
  obtain ⟨hfirstItem, hlengthItem⟩ := h.mem_items texts hmem
  obtain ⟨fn, hfn, his⟩ := hhas.func _ hfirstItem
  obtain ⟨fn', hfn', his'⟩ := hhas.func _ hlengthItem
  have hsound := h.sound.string s hmem
  have hrunes := Latin1.runes_of_encode? hsound.chars
  have hlength : (Utf8.runes s.content).length = s.chars.length := by
    rw [hrunes, List.length_map]
  have hfirst : ∀ (env : MachineEnv) (f : Frame) (x : Machine), env.module = m →
      f.depth < maxCallDepth → x.plain = x → Eval.FormEnds env f
        (.words ["call", Name.stringFirst s.offset]) x (.ok (.i32 s.firstChar)) x := by
    rintro env f x rfl hdepth hx
    exact Eval.formEnds_first hx hfn his hdepth
  have haddress := h.sound.toNat_firstChar hmem
  have hstop := hsound.stop
  have hle := hsound.segment_le
  have hstart := hsound.start
  have hsize := h.sound.size_memory
  rw [s.length_segment] at hle
  constructor
  case code =>
    intro env want x hprogram harena hx
    refine expr_of_stringContent (harena ▸ hs) ?_
    rw [Env.types, hprogram]
    exact hx
  case first => exact hfirst
  case length =>
    rintro env f x rfl hdepth hx hmemory
    rw [hlength]
    exact Eval.formEnds_length h.sound hmem (hfirst env f x rfl hdepth hx) hmemory hfn' his' hdepth
  case text => exact h.sound.string_memory hmem
  case char =>
    intro i r hr
    rw [hrunes, List.getElem?_map, Option.map_eq_some_iff] at hr
    obtain ⟨b, hb, rfl⟩ := hr
    exact ⟨b, rfl, h.sound.load_char hmem hb⟩
  case above => omega
  case inside =>
    rw [hlength]
    show _ ≤ e.arena.memory.size.toNat
    omega

/-- Strings at one address are one string. -/
theorem Writes.eq_of_firstChar (h : e.Writes out funcs directives) {t : StringSlot}
    (hs : s ∈ e.arena.strings) (ht : t ∈ e.arena.strings) (hsame : s.firstChar = t.firstChar) :
    s = t := by
  have hnodup : (e.arena.strings.map (·.firstChar)).Nodup := by
    refine List.pairwise_map.mpr (h.sound.strings.imp_of_mem fun {s t} hs ht hst hsame => ?_)
    have hle := (h.sound.string s hs).segment_le
    have hs' := h.sound.toNat_firstChar hs
    have ht' := h.sound.toNat_firstChar ht
    rw [hsame] at hs'
    omega
  exact List.inj_on_of_nodup_map hnodup hs ht hsame

end Emission

/-- String literals survive: in the module that is read from the text of a program, the code of
every string literal gives the address of its string, where its characters are found with their
number in front of them. Equal strings have one address, and others have others. -/
theorem strings_kept {p : Program} {out : ModuleOutput} {ns ds : List SourceForm} {m : Module}
    (hops : p.NamesOps) (hemit : Work.Comes p.emit out) (hread : Script.read out.text = .ok ns)
    (hm : instantiate ns = .ok (m, ds)) : p.KeepsStrings m := by
  obtain ⟨e, funcs, directives, rfl, hwrites⟩ := Program.writes_of_emit hemit
  obtain ⟨texts, _, hhas⟩ := hwrites.has hops hread hm
  refine ⟨e, _, fun c =>
    .words ["call", Name.stringFirst ((e.arena.string? c).getD default).offset],
    fun c => ((e.arena.string? c).getD default).firstChar, hwrites.emission?, hwrites.start hhas,
    fun c hc => ?_, fun c hc d hd hsame => ?_⟩
  · obtain ⟨s, hs⟩ := hwrites.exists_slot hc
    simp only [hs, Option.getD_some]
    exact hwrites.keeps hhas hs
  · obtain ⟨s, hs⟩ := hwrites.exists_slot hc
    obtain ⟨t, ht⟩ := hwrites.exists_slot hd
    simp only [hs, ht, Option.getD_some] at hsame
    obtain ⟨hsmem, rfl⟩ := Emission.mem_strings_of_string? hs
    obtain ⟨htmem, rfl⟩ := Emission.mem_strings_of_string? ht
    rw [hwrites.eq_of_firstChar hsmem htmem hsame]

/-- The greeting is kept, in a memory that has a field as well. -/
theorem strings_kept_greeting :
    ∃ m, greetingProgram.module? = some m ∧ ("hi" : Bytes) ∈ greetingProgram.strings
      ∧ greetingProgram.KeepsStrings m := by
  have hmodule : greetingProgram.module?.isSome := by decide +kernel
  obtain ⟨m, hm⟩ := Option.isSome_iff_exists.mp hmodule
  obtain ⟨out, ns, ds, hemit, hread, hinstantiate⟩ := Program.comes_of_module? hm
  have hfront : greetingProgram.IsFrontEnd := by decide +kernel
  exact ⟨m, hm, by decide +kernel, strings_kept hfront.namesOps hemit hread hinstantiate⟩

/-- A program with a string and with a function that ends the module early. -/
def intrudedProgram : Program :=
  let greeting : Expr := .literal { type := TypeTable.string } { kind := .string, string := "hi" }
  { name := "intruded"
    decls := some [{
      name := "T"
      funcs := some [
        { name := "Greet", declaringType := "T", flags := 3, result := TypeTable.string
          body := .block { id := 1 } (some [.ret { id := 2 } greeting]) },
        intruder] }] }

/-- Names of instructions have to be words: this program is written, its text is accepted and its
functions have names of their own, and still its string is lost. -/
theorem strings_lost :
    ∃ out ns ds m, Work.Comes intrudedProgram.emit out ∧ Script.read out.text = .ok ns
      ∧ instantiate ns = .ok (m, ds) ∧ intrudedProgram.functionNames.Nodup
      ∧ ¬intrudedProgram.KeepsStrings m := by
  have hmodule : intrudedProgram.module?.any
      (fun m => (m.func? (Name.stringFirst 0)).isNone) := by decide +kernel
  have harena : intrudedProgram.emission?.all
      (fun e => (e.arena.string? "hi").any (·.offset = 0)) := by decide +kernel
  obtain ⟨m, hm, hmissing⟩ := (Option.any_eq_true _ _).mp hmodule
  obtain ⟨out, ns, ds, hemit, hread, hinstantiate⟩ := Program.comes_of_module? hm
  refine ⟨out, ns, ds, m, hemit, hread, hinstantiate, by decide +kernel, ?_⟩
  rintro ⟨e, start, call, address, he, _, hkeeps, _⟩
  have hstring : ("hi" : Bytes) ∈ intrudedProgram.strings := by decide +kernel
  have hkept := hkeeps _ hstring
  rw [he] at harena
  obtain ⟨s, hs, hoffset⟩ := (Option.any_eq_true _ _).mp harena
  have hcall : call "hi" = .words ["call", Name.stringFirst 0] := by
    let greeting : Expr := .literal {} { kind := .string, string := "hi" }
    have hcode := hkept.code e.env true greeting rfl rfl rfl
    have hexpr : expr e.env true greeting = pure (some (.words ["call", Name.stringFirst 0])) := by
      rw [← of_decide_eq_true hoffset]
      exact expr_of_stringContent hs rfl
    have hresult := congrArg Work.result? (hcode.symm.trans hexpr)
    exact Option.some.inj (Option.some.inj hresult)
  have hends := hkept.first ⟨m, 0, fun _ => .error []⟩ ⟨none, 0⟩ {} rfl (by decide) rfl
  rw [hcall] at hends
  exact Eval.not_formEnds_call (Option.isNone_iff_eq_none.mp hmissing) hends

end WastForge
