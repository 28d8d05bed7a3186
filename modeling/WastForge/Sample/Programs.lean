import WastForge.Sample.Basic

/-!
# The sample programs

Small programs that count, jump, sieve primes, run a static constructor, join strings and read them.
Each of them checks what it did.
-/

namespace WastForge.Sample

open DraftM

/-!
## Counting up

Consecutive words of the heap are filled with consecutive numbers and read back.
-/

/-- The program that counts up. -/
def countUp : Program := Draft.build "CountUp" do
  let source ← file "CountUp.cs"
  let fill ← func owner "countUp" TypeTable.void 0
  exportAs fill []
  let outOffset ← param fill "outOffset" TypeTable.int32
  let count ← param fill "count" TypeTable.int32
  let i ← localVar fill "i" TypeTable.int32
  let loop ← countLoop i count do
    return [← eval (← heapSet wordsView i [outOffset, i])]
  body fill [← placeAt loop (atLine source 10)]
  let readWord ← func owner "readI32" TypeTable.int32 0
  exportAs readWord []
  let base ← param readWord "base" TypeTable.int32
  let offset ← param readWord "offset" TypeTable.int32
  body readWord [← placeAt (← ret (← heapGet wordsView [base, offset])) (atLine source 16)]
  let main ← func owner "Main" TypeTable.void entryFlag
  let size ← placeAt (← eval (.setHeapSize (.i32 4096))) (atLine source 20)
  let first ← eval (← invoke "countUp" [.i32 0, .i32 32])
  let second ← eval (← invoke "countUp" [.i32 16, .i32 4])
  let results ← checks assertEq "readI32"
    [(.i32 0, [0, 0]), (.i32 2, [0, 2]), (.i32 31, [0, 31]), (.i32 0, [16, 0]), (.i32 3, [16, 3])]
  body main ([size, first, second] ++ results)

/-!
## Jumping between labels

A group of labels inside of a loop jumps back to a label of the group around the loop. Which labels
were reached is written to the heap.
-/

/-- What is written at the outer label. -/
def outerMark : UInt8 := 1

/-- What is written at the inner label. -/
def innerMark : UInt8 := 3

/-- The program that jumps between labels. -/
def goto : Program := Draft.build "Goto" do
  let source ← file "Goto.cs"
  staticField owner "_ResultCount" TypeTable.int32 false
  let resultCount := Expr.staticProperty owner "ResultCount" TypeTable.int32
  let getter ← func owner "get_ResultCount" TypeTable.int32 0
  exportAs getter []
  body getter [← ret (← fieldExpr owner "_ResultCount")]
  let setter ← func owner "set_ResultCount" TypeTable.void 0
  let value ← param setter "value" TypeTable.int32
  body setter [← eval (.assign (← fieldExpr owner "_ResultCount") value)]
  let clear ← clearFunc
  let addResult ← func owner "AddResult" TypeTable.void 0
  let result ← param addResult "result" TypeTable.uint8
  let count ← localVar addResult "count" TypeTable.int32
  body addResult [
    ← declare [initial count resultCount],
    ← eval (← heapSet bytesView result [.i32 0, count]),
    ← eval (.assign resultCount (.op2 .add count (.i32 1)))]
  let inner ← func owner "GotosInner" TypeTable.void 0
  let i ← localVar inner "i" TypeTable.int32
  let start ← declare [initial i (.i32 0)]
  let step ← eval (.op2 .addAssign i (.i32 1))
  let markOuter ← eval (← callFunc addResult [.u8 outerMark])
  let jump ← ite (.op2 .eq i (.i32 8)) (← DraftM.goto "a") (← DraftM.goto "c")
  let markInner ← eval (← callFunc addResult [.u8 innerMark])
  let innerGroup ← labelGroup [label "entry" [jump], label "c" [markInner]]
  let innerGroup ← placeAt innerGroup (atLine source 38)
  let loop ← forLoop [] (.op2 .lt i (.i32 16)) [.op1 .postInc i] [innerGroup]
  let group ← labelGroup [label "a" [step, markOuter, loop]]
  body inner [start, ← placeAt group (atLine source 31)]
  let gotos ← func owner "Gotos" TypeTable.void 0
  exportAs gotos "gotos"
  body gotos [
    ← eval (.assign resultCount (.i32 0)),
    ← eval (← callFunc clear [.i32 0, .i32 128]),
    ← eval (← callFunc inner [])]
  let getResult ← func owner "GetResult" TypeTable.int32 0
  exportAs getResult "getResult"
  let index ← param getResult "index" TypeTable.int32
  body getResult [
    ← ret (.convert TypeTable.int32 (← heapGet bytesView [.i32 0, index]))]
  let size ← eval (.setHeapSize (.i32 1024))
  let call ← eval (← invoke "gotos" [])
  let counted ← eval (← assertReturn (.i32 16) "get_ResultCount" [])
  let reached (n : Nat) : Int64 :=
    if n = 16 then 0
    else if n = 0 || n = 8 then outerMark.toNat.toInt64
    else innerMark.toNat.toInt64
  let results ← checks assertReturn "getResult"
    ((List.range 17).map fun n => (.i32 (reached n), [Int64.ofNat n]))
  entryPoint ([size, call, counted] ++ results)

/-!
## The sieve of Eratosthenes

The primes below a bound are found on the heap: first their count, then the primes themselves, and
behind these a byte for every candidate.
-/

/-- How many primes there is room for. -/
def maxPrimes : Int64 := 4096

/-- Where the count of the primes is, as a word. -/
def primeCount : Expr := .i32 0

/-- Where the primes start, as a word. -/
def primeList : Expr := .i32 4

/-- Where the bytes of the candidates start. -/
def candidates : Expr := .i32 (maxPrimes * 4 + 4)

/-- The program that finds primes. -/
def sieve : Program := Draft.build "Sieve" do
  let source ← file "Sieve.cs"
  let clear ← clearFunc
  let addResult ← func owner "AddResult" TypeTable.void 0
  let result ← param addResult "result" TypeTable.int32
  let count ← localVar addResult "count" TypeTable.int32
  body addResult [
    ← declare [initial count (← heapGet wordsView [primeCount])],
    ← eval (← heapSet wordsView result [primeList, count]),
    ← eval (← heapSet wordsView (.op2 .add count (.i32 1)) [primeCount])]
  let find ← func owner "Sieve" TypeTable.void 0
  exportAs find "sieve"
  let target ← param find "target" TypeTable.int32
  let squareRoot ← localVar find "squareRoot" TypeTable.float64
  let candidate ← localVar find "candidate" TypeTable.int32
  let multiple ← localVar find "multiple" TypeTable.int32
  let reset ← eval (← heapSet wordsView (.i32 0) [primeCount])
  let clearPrimes ← eval (← callFunc clear [primeList, .i32 (maxPrimes * 4)])
  let clearCandidates ← eval (← callFunc clear [candidates, target])
  let root ← declare
    [initial squareRoot (.math "Sqrt" [.convert TypeTable.float64 target])]
  let two ← eval (← callFunc addResult [.i32 2])
  let start ← declare [initial candidate (.i32 3)]
  let crossed := Expr.convert TypeTable.int32 (← heapGet bytesView [candidates, candidate])
  let skip ← ite (.op2 .ne crossed (.i32 0)) (← continueLoop) .missing
  let firstMultiple ← declare [initial multiple (.op2 .mul candidate candidate)]
  let cross ← eval (← heapSet bytesView (.u8 1) [candidates, multiple])
  let crossAll ← forLoop [firstMultiple] (.op2 .lt multiple target)
    [.op2 .addAssign multiple (.op2 .mul (.i32 2) candidate)] [cross]
  let crossBlock ← block [crossAll]
  let crossBelow ←
    ite (.op2 .lt (.convert TypeTable.float64 candidate) squareRoot) crossBlock .missing
  let add ← eval (← callFunc addResult [candidate])
  let loop ← forLoop [start] (.op2 .lt candidate target)
    [.op2 .addAssign candidate (.i32 2)] [skip, crossBelow, add]
  let loop ← placeAt loop (atLine source 37)
  body find [reset, clearPrimes, clearCandidates, root, two, loop]
  let getCount ← func owner "GetResultCount" TypeTable.int32 0
  exportAs getCount "getResultCount"
  body getCount [← ret (← heapGet wordsView [primeCount])]
  let getResult ← func owner "GetResult" TypeTable.int32 0
  exportAs getResult "getResult"
  let index ← param getResult "index" TypeTable.int32
  body getResult [← ret (← heapGet wordsView [primeList, index])]
  let size ← eval (.setHeapSize (.i32 131072))
  let call ← eval (← invoke "sieve" [.i32 24])
  let counted ← eval (← assertEq (.i32 9) "getResultCount" [])
  let primes : List Int64 := [2, 3, 5, 7, 11, 13, 17, 19, 23]
  let results ← checks assertEq "getResult"
    (primes.mapIdx fun n p => (.i32 p, [Int64.ofNat n]))
  entryPoint ([size, call, counted] ++ results)

/-!
## Static constructors

A static constructor runs before the first directive, and a field that it set is read.
-/

/-- The program with a static constructor. -/
def staticInit : Program := Draft.build "StaticInit" do
  let counter : Bytes := "Counter"
  staticField counter "Start" TypeTable.int32 false
  staticField counter "Step" TypeTable.int32 true
  let start ← fieldExpr counter "Start"
  let step ← fieldExpr counter "Step"
  let ctor ← func counter ".cctor" TypeTable.void ctorFlag
  body ctor [← eval (.assign start (.i32 10)), ← eval (.assign step (.i32 3))]
  let next ← func counter "Next" TypeTable.int32 0
  exportAs next "next"
  body next [← eval (.op2 .addAssign start step), ← ret start]
  entryPoint (← checks assertReturn "next" [(.i32 13, []), (.i32 16, [])])

/-!
## Joining strings

String literals are copied to the heap one behind the other, and the result is written to a file.
-/

/-- The program that joins strings. -/
def strcat : Program := Draft.build "Strcat" do
  let source ← file "Strcat.cs"
  let append ← func owner "strcat" TypeTable.int32 0
  let dest ← param append "dest" TypeTable.int32
  let text ← param append "src" TypeTable.string
  let i ← localVar append "i" TypeTable.int32
  let l ← localVar append "l" TypeTable.int32
  let start ← declare [initial i (.i32 0), initial l (.strLen text)]
  let copy ← eval (← heapSet bytesView (.convert TypeTable.uint8 (.strChar text i)) [dest, i])
  let loop ← forLoop [start] (.op2 .lt i l) [.op1 .postInc i] [copy]
  let loop ← placeAt loop (atLine source 9)
  body append [loop,
    ← eval (← heapSet bytesView (.u8 0) [dest, .strLen text]),
    ← ret (.op2 .add dest (.strLen text))]
  let build ← func owner "buildString" TypeTable.void 0
  exportAs build []
  let offset ← localVar build "offset" TypeTable.int32
  let first ← declare [initial offset (← callFunc append [.i32 0, .string "hello"])]
  let parts : List Bytes := [", ", "world", "!"]
  let rest ← parts.mapM fun part => do
    eval (.assign offset (← callFunc append [offset, .string part]))
  let redirect ← placeAt (← eval (.setStdout (.string "strcat.log"))) (atLine source 24)
  body build ([first] ++ rest ++ [redirect, ← eval (.writeHeap (.i32 0) offset)])
  entryPoint [
    ← eval (.setHeapSize (.i32 1024)),
    ← eval (← invoke "buildString" []),
    ← eval (.assertHeapEq 0 "hello, world!")]

/-!
## Reading strings

Lengths and characters of string literals are read, and strings are compared, the null string
among them.
-/

/-- Declare the function that gives one of several strings. -/
def pickString (source : UInt32) : DraftM FuncId := do
  let f ← func owner "getAString" TypeTable.string 0
  let index ← param f "index" TypeTable.int32
  let texts : List Bytes := ["hello", "world!", [0, 13, 10, 7]]
  let arms ← (texts.mapIdx fun i t => (Int64.ofNat (i + 1), t)).mapM fun (i, t) => do
    return arm [.i32 i] [← ret (.string t)]
  let other := defaultArm [← ret (.null TypeTable.string)]
  body f [← placeAt (← switch index (arms ++ [other])) (atLine source 9)]
  return f

/-- Declare the function that compares two strings; null comes first. -/
def compareFunc (source : UInt32) : DraftM FuncId := do
  let f ← func owner "strcmp" TypeTable.int32 0
  let lhs ← param f "lhs" TypeTable.string
  let rhs ← param f "rhs" TypeTable.string
  let length ← localVar f "length" TypeTable.int32
  let i ← localVar f "i" TypeTable.int32
  let left ← localVar f "chL" TypeTable.char
  let right ← localVar f "chR" TypeTable.char
  let isNull (e : Expr) : Expr := .op2 .eq e (.null TypeTable.string)
  let answer (n : Int64) : DraftM Stmt := ret (.i32 n)
  let bothNull ← ite (isNull rhs) (← answer 0) (← answer (-1))
  let rightNull ← ite (isNull rhs) (← answer 1) .missing
  let nulls ← ite (isNull lhs) bothNull rightNull
  let leftLength ← declare [initial length (.strLen lhs)]
  let shorter ← ite (.op2 .lt (.strLen rhs) length)
    (← eval (.assign length (.strLen rhs))) .missing
  let loop ← countLoop i length do
    let readLeft ← declare [initial left (.strChar lhs i)]
    let readRight ← declare [initial right (.strChar rhs i)]
    let less ← answer (-1)
    let greater ← ite (.op2 .gt left right) (← answer 1) .missing
    return [readLeft, readRight, ← ite (.op2 .lt left right) less greater]
  let loop ← placeAt loop (atLine source 35)
  body f [nulls, leftLength, shorter, loop, ← answer 0]
  return f

/-- The program that reads strings. -/
def strings : Program := Draft.build "Strings" do
  let source ← file "Strings.cs"
  let pick ← pickString source
  let compare ← compareFunc source
  let compareStrings ← func owner "compareStrings" TypeTable.int32 0
  exportAs compareStrings []
  let lhsIndex ← param compareStrings "lhsIndex" TypeTable.int32
  let rhsIndex ← param compareStrings "rhsIndex" TypeTable.int32
  body compareStrings [
    ← ret (← callFunc compare [← callFunc pick [lhsIndex], ← callFunc pick [rhsIndex]])]
  let getLength ← func owner "getStringLength" TypeTable.int32 0
  exportAs getLength []
  let stringIndex ← param getLength "stringIndex" TypeTable.int32
  let text ← localVar getLength "str" TypeTable.string
  body getLength [
    ← declare [initial text (← callFunc pick [stringIndex])],
    ← ret (.strLen text)]
  let readChar ← func owner "readStringChar" TypeTable.char 0
  exportAs readChar []
  let charIndex ← param readChar "stringIndex" TypeTable.int32
  let offset ← param readChar "offset" TypeTable.int32
  let charText ← localVar readChar "str" TypeTable.string
  body readChar [
    ← declare [initial charText (← callFunc pick [charIndex])],
    ← ret (.strChar charText offset)]
  let lengths ← checks assertEq "getStringLength" [(.i32 5, [1]), (.i32 6, [2])]
  let chars ← checks assertEq "readStringChar"
    [(.char 104, [1, 0]), (.char 108, [1, 2]), (.char 119, [2, 0]), (.char 108, [2, 3]),
      (.char 33, [2, 5])]
  let orders ← checks assertEq "compareStrings"
    [(.i32 0, [0, 0]), (.i32 (-1), [0, 1]), (.i32 1, [2, 0]), (.i32 0, [1, 1]),
      (.i32 (-1), [1, 2]), (.i32 1, [2, 1])]
  let controls ← checks assertEq "readStringChar"
    [(.char 0, [3, 0]), (.char 13, [3, 1]), (.char 10, [3, 2]), (.char 7, [3, 3])]
  entryPoint (lengths ++ chars ++ orders ++ controls)

end WastForge.Sample
