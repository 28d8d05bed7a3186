import WastForge.Sample.Programs
import WastForge.Text.Case

/-!
# The catalog of samples

Samples are found by their names in any case and are listed in the order of their names.
-/

namespace WastForge

/-- A sample program. -/
structure Sample where
  name : Bytes
  summary : Bytes
  program : Program
  /-- The files that the program writes, with their contents. -/
  outputs : List (Bytes × Bytes) := []

namespace Sample

/-- All samples by their names. -/
def all : List Sample :=
  [{ name := "CountUp"
     summary := "fills the i32 heap view and reads it back"
     program := countUp },
   { name := "Goto"
     summary := "goto between nested label groups and an exported property"
     program := goto },
   { name := "Sieve"
     summary := "sieve of Eratosthenes over the byte heap"
     program := sieve },
   { name := "StaticInit"
     summary := "static constructors and field accessors"
     program := staticInit },
   { name := "Strcat"
     summary := "copies string literals into the heap and writes them to a file"
     program := strcat
     outputs := [("strcat.log", "hello, world!")] },
   { name := "Strings"
     summary := "string table, length and char access, null strings"
     program := strings }]

/-- The names of all samples. -/
def names : List Bytes := all.map (·.name)

/-- The sample with a name, in any case. -/
def ofName? (name : Bytes) : Option Sample := all.find? fun s => Case.fold s.name == Case.fold name

end Sample

end WastForge
