import OrbitGraph.History.Pairing
import OrbitGraph.Lib.SortedDedup
import OrbitGraph.Sync.Store

/-!
The rows of a file, each once.

An extractor ends with `dedup_symbols` and its siblings, which sort rows by some of their fields and then drop a row
that agrees with the one before it on others. A row has the path of its file here.
-/

namespace OrbitGraph.Extract.Rows

open Lib

structure RawSymbol extends History.RawSymbol where
  filePath : Text

structure RawRef extends Sync.RawRef where
  fromFile : Text
  confidence : Text

structure RawRelation extends Sync.RawRelation where
  defFile : Text

structure RawImport extends Sync.RawImport where
  fromFile : Text

structure RawCommand extends Sync.RawCommand where
  filePath : Text

def symbolCmp : RawSymbol → RawSymbol → Ordering :=
  compareLex (compareOn (·.spanStart)) (compareLex (compareOn (·.spanEnd)) (compareLex (compareOn (·.kind))
    (compareOn (·.qualified))))

def refCmp : RawRef → RawRef → Ordering :=
  compareLex (compareOn (·.spanStart)) (compareLex (compareOn (·.spanEnd)) (compareLex (compareOn (·.kind))
    (compareOn (·.targetName))))

def relationCmp : RawRelation → RawRelation → Ordering :=
  compareLex (compareOn (·.defSpanStart)) (compareLex (compareOn (·.fromQualified)) (compareOn (·.toQualified)))

def importCmp : RawImport → RawImport → Ordering :=
  compareLex (compareOn (·.targetPath)) (compareLex (compareOn (·.targetSymbol)) (compareLex (compareOn (·.sourceSymbol))
    (compareOn (·.reexportModule))))

def commandCmp : RawCommand → RawCommand → Ordering :=
  compareLex (compareOn (·.spanStart)) (compareLex (compareOn (·.name)) (compareOn (·.handlerSymbol)))

instance : Std.TransCmp symbolCmp := by unfold symbolCmp; infer_instance

instance : Std.TransCmp refCmp := by unfold refCmp; infer_instance

instance : Std.TransCmp relationCmp := by unfold relationCmp; infer_instance

instance : Std.TransCmp importCmp := by unfold importCmp; infer_instance

instance : Std.TransCmp commandCmp := by unfold commandCmp; infer_instance

def sameSymbol (left right : RawSymbol) : Bool :=
  left.filePath = right.filePath ∧ left.qualified = right.qualified ∧ left.kind = right.kind ∧
    left.spanStart = right.spanStart ∧ left.spanEnd = right.spanEnd

def sameRef (left right : RawRef) : Bool :=
  left.fromFile = right.fromFile ∧ left.spanStart = right.spanStart ∧ left.spanEnd = right.spanEnd ∧
    left.targetName = right.targetName ∧ left.targetQualified = right.targetQualified ∧ left.kind = right.kind ∧
    left.confidence = right.confidence

def sameRelation (left right : RawRelation) : Bool :=
  left.fromQualified = right.fromQualified ∧ left.toQualified = right.toQualified ∧ left.kind = right.kind ∧
    left.defFile = right.defFile ∧ left.defSpanStart = right.defSpanStart ∧ left.defSpanEnd = right.defSpanEnd

def sameImport (left right : RawImport) : Bool :=
  left.fromFile = right.fromFile ∧ left.targetPath = right.targetPath ∧ left.targetSymbol = right.targetSymbol ∧
    left.sourceSymbol = right.sourceSymbol ∧ left.reexportModule = right.reexportModule

def sameCommand (left right : RawCommand) : Bool :=
  left.filePath = right.filePath ∧ left.name = right.name ∧ left.spanStart = right.spanStart ∧
    left.handlerSymbol = right.handlerSymbol

def dedupSymbols : List RawSymbol → List RawSymbol := sortedDedup symbolCmp sameSymbol

def dedupRefs : List RawRef → List RawRef := sortedDedup refCmp sameRef

def dedupRelations : List RawRelation → List RawRelation := sortedDedup relationCmp sameRelation

def dedupImports : List RawImport → List RawImport := sortedDedup importCmp sameImport

def dedupCommands : List RawCommand → List RawCommand := sortedDedup commandCmp sameCommand

/-! ### The duplicates -/

theorem refines_symbol : Refines symbolCmp sameSymbol where
  refl _ := by simp [sameSymbol]
  equal _ _ same := by simp_all [sameSymbol, symbolCmp, compareLex, compareOn, Std.ReflCmp.compare_self]

theorem refines_ref : Refines refCmp sameRef where
  refl _ := by simp [sameRef]
  equal _ _ same := by simp_all [sameRef, refCmp, compareLex, compareOn, Std.ReflCmp.compare_self]

theorem refines_relation : Refines relationCmp sameRelation where
  refl _ := by simp [sameRelation]
  equal _ _ same := by simp_all [sameRelation, relationCmp, compareLex, compareOn, Std.ReflCmp.compare_self]

theorem refines_import : Refines importCmp sameImport where
  refl _ := by simp [sameImport]
  equal _ _ same := by simp_all [sameImport, importCmp, compareLex, compareOn, Std.ReflCmp.compare_self]

theorem refines_command : Refines commandCmp sameCommand where
  refl _ := by simp [sameCommand]
  equal _ _ same := by simp_all [sameCommand, commandCmp, compareLex, compareOn, Std.ReflCmp.compare_self]

/-- Each of the five removes exactly the duplicates of a list just if rows of it that agree on what they are sorted by
are equal. -/
theorem dedups_exact_iff (symbols : List RawSymbol) (refs : List RawRef) (relations : List RawRelation)
    (imports : List RawImport) (commands : List RawCommand) :
    (RemovesDuplicates dedupSymbols sameSymbol symbols ↔ Distinguishes symbolCmp symbols) ∧
      (RemovesDuplicates dedupRefs sameRef refs ↔ Distinguishes refCmp refs) ∧
      (RemovesDuplicates dedupRelations sameRelation relations ↔ Distinguishes relationCmp relations) ∧
      (RemovesDuplicates dedupImports sameImport imports ↔ Distinguishes importCmp imports) ∧
      (RemovesDuplicates dedupCommands sameCommand commands ↔ Distinguishes commandCmp commands) :=
  ⟨removesDuplicates_iff refines_symbol symbols, removesDuplicates_iff refines_ref refs,
    removesDuplicates_iff refines_relation relations, removesDuplicates_iff refines_import imports,
    removesDuplicates_iff refines_command commands⟩

/-- A call of `f`, qualified. -/
def callOf (target : String) : RawRef :=
  ⟨⟨0, 3, ['f'], some target.toList, "call", none, false⟩, "a.rs", "fuzzy_name"⟩

/-- A call that stands on both sides of another one of the same name stays twice. -/
theorem dedupRefs_keeps_twice : ¬ RemovesDuplicates dedupRefs sameRef [callOf "a::f", callOf "b::f", callOf "a::f"] :=
  fun removes => absurd removes.apart (by decide)

end OrbitGraph.Extract.Rows
