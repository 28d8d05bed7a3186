import WastForge.Bytes

/-!
# Diagnostic codes

Every diagnostic carries a number; the thousands tell which part of the work it comes from.
-/

namespace WastForge

/-- The number of a kind of diagnostic. -/
structure Code where
  number : UInt16 := 0
  deriving Repr, DecidableEq, Inhabited

namespace Code

/-- Nothing is known about the problem. -/
def unknown : Code := ⟨0⟩

/-- IR document could not be decoded. -/
def decodeFailed : Code := ⟨1001⟩

/-- Unknown IR node kind. -/
def unknownKind : Code := ⟨1002⟩

/-- IR schema version mismatch. -/
def schemaMismatch : Code := ⟨1003⟩

/-- Entry point refers to a missing function. -/
def missingEntry : Code := ⟨1004⟩

/-- Statement node id used twice in one function. -/
def duplicateNode : Code := ⟨1005⟩

/-- Export name must be a string literal. -/
def exportName : Code := ⟨2001⟩

/-- Heap size must be an integer literal. -/
def heapSize : Code := ⟨2002⟩

/-- Heap size declared twice for one type. -/
def heapSizeTwice : Code := ⟨2003⟩

/-- Argument array must use an initializer list. -/
def argumentArray : Code := ⟨2004⟩

/-- Malformed test harness call. -/
def harnessArguments : Code := ⟨2005⟩

/-- Intrinsic called with the wrong number of arguments. -/
def arity : Code := ⟨2006⟩

/-- Static field type has no memory representation. -/
def fieldType : Code := ⟨3001⟩

/-- Struct contains itself by value. -/
def recursiveStruct : Code := ⟨3002⟩

/-- Linear memory exceeds 4 GiB. -/
def memoryOverflow : Code := ⟨3003⟩

/-- String literal has characters outside Latin-1. -/
def notLatin1 : Code := ⟨3004⟩

/-- Node cannot be translated. -/
def untranslatable : Code := ⟨4002⟩

/-- Instance method calls are not supported. -/
def instanceCall : Code := ⟨4003⟩

/-- Invalid assignment target. -/
def assignTarget : Code := ⟨4004⟩

/-- Goto targets a label outside every enclosing label group. -/
def undeclaredLabel : Code := ⟨4005⟩

/-- Non-default switch case has no values. -/
def caseWithoutValues : Code := ⟨4006⟩

/-- Switch case value is not a numeric literal. -/
def caseNotConstant : Code := ⟨4007⟩

/-- Label group was not registered by the pre-pass. -/
def labelGroup : Code := ⟨4008⟩

/-- Break or continue outside of a loop. -/
def noEnclosingLoop : Code := ⟨4009⟩

/-- Call to a function outside the program. -/
def unknownFunction : Code := ⟨4010⟩

/-- Function skipped. -/
def skippedFunction : Code := ⟨4011⟩

/-- Value has no linear-memory slot. -/
def missingSlot : Code := ⟨4012⟩

/-- Script could not be parsed. -/
def scriptSyntax : Code := ⟨5001⟩

/-- The letters in front of the number, by its thousands. -/
def family? (n : Nat) : Option Bytes :=
  match n / 1000 with
  | 1 => some "IR"
  | 2 => some "RWR"
  | 3 => some "LAY"
  | 4 => some "EMI"
  | 5 => some "HAR"
  | _ => none

/-- The short name of a code. -/
def id (c : Code) : Bytes :=
  match family? c.number.toNat with
  | some letters => letters ++ Bytes.ofNat c.number.toNat
  | none => "E0000"

/-- What a code stands for. -/
def title (c : Code) : Bytes :=
  match c.number.toNat with
  | 1000 => "IR information"
  | 1001 => "IR document could not be decoded"
  | 1002 => "Unknown IR node kind"
  | 1003 => "IR schema version mismatch"
  | 1004 => "Entry point refers to a missing function"
  | 1005 => "Statement node id used twice in one function"
  | 1006 => "Static field has no type"
  | 2000 => "Rewrite information"
  | 2001 => "Export name must be a string literal"
  | 2002 => "Heap size must be an integer literal"
  | 2003 => "Heap size declared twice for one type"
  | 2004 => "Argument array must use an initializer list"
  | 2005 => "Malformed test harness call"
  | 2006 => "Intrinsic called with the wrong number of arguments"
  | 3000 => "Layout information"
  | 3001 => "Static field type has no memory representation"
  | 3002 => "Struct contains itself by value"
  | 3003 => "Linear memory exceeds 4 GiB"
  | 3004 => "String literal has characters outside Latin-1"
  | 4000 => "Emission information"
  | 4001 => "Type has no wasm representation"
  | 4002 => "Node cannot be translated"
  | 4003 => "Instance method calls are not supported"
  | 4004 => "Invalid assignment target"
  | 4005 => "Goto targets a label outside every enclosing label group"
  | 4006 => "Non-default switch case has no values"
  | 4007 => "Switch case value is not a numeric literal"
  | 4008 => "Label group was not registered by the pre-pass"
  | 4009 => "Break or continue outside of a loop"
  | 4010 => "Call to a function outside the program"
  | 4011 => "Function skipped"
  | 4012 => "Value has no linear-memory slot"
  | 5000 => "Harness information"
  | 5001 => "Script could not be parsed"
  | 5002 => "Execution trapped"
  | 5003 => "Assertion failed"
  | 5004 => "Unknown export"
  | 5005 => "Output sink error"
  | _ => "Unknown error"

/-- The short name in brackets and the title. -/
def text (c : Code) : Bytes := "[" ++ c.id ++ "]: " ++ c.title

end Code

end WastForge
