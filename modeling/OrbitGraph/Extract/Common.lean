import OrbitGraph.Extract.Dedup

/-!
What the extractors do with the rows of a file at the end: sorted, and each once.
-/

namespace OrbitGraph.Extract

open Lib
open Sync (RawImport)

/-- The order in which `dedup_imports` sorts. -/
def importCmp : RawImport → RawImport → Ordering :=
  compareLex (compareOn RawImport.targetPath) (compareLex (compareOn RawImport.targetSymbol)
    (compareLex (compareOn RawImport.sourceSymbol) (compareOn RawImport.reexportModule)))

def dedupImports (imports : List RawImport) : List RawImport :=
  (imports.insertionSort fun left right => (importCmp left right).isLE = true).destutter (· ≠ ·)

instance : Std.TransCmp importCmp := by
  unfold importCmp
  infer_instance

theorem eq_of_importCmp {left right : RawImport} (same : importCmp left right = .eq) : left = right := by
  simp only [importCmp, compareLex, compareOn, Ordering.then_eq_eq] at same
  obtain ⟨path, symbol, source, marked⟩ := same
  cases left
  cases right
  simp_all

instance : Std.Total fun left right => (importCmp left right).isLE = true where
  total left right := by
    rw [@Std.OrientedCmp.eq_swap _ importCmp _ right, Ordering.isLE_swap]
    cases importCmp left right <;> simp

instance : IsTrans RawImport fun left right => (importCmp left right).isLE = true where
  trans _ _ _ := Std.TransCmp.isLE_trans

instance : Std.Antisymm fun left right => (importCmp left right).isLE = true where
  antisymm _ _ before after := eq_of_importCmp (Std.OrientedCmp.isLE_antisymm before after)

theorem dedupImports_perm (imports : List RawImport) : (dedupImports imports).Perm imports.dedup := by
  rw [dedupImports, (List.pairwise_insertionSort (fun left right => (importCmp left right).isLE = true) imports).destutter_eq_dedup]
  exact (List.perm_insertionSort _ imports).dedup

/-- For the rows of one file this is the `dedup_imports` of the rows with their path. -/
theorem rows_dedupImports (path : Text) (imports : List RawImport) :
    Rows.dedupImports (imports.map fun row => ⟨row, path⟩) = (dedupImports imports).map fun row => ⟨row, path⟩ := by
  unfold Rows.dedupImports sortedDedup dedupImports
  rw [← List.map_insertionSort (fun left right => (importCmp left right).isLE = true) _ _ imports fun _ _ _ _ => Iff.rfl]
  refine (List.map_destutter fun left _ right _ => ?_).symm
  cases left
  cases right
  simp only [Rows.sameImport, RawImport.mk.injEq, decide_eq_false_iff_not, true_and, ne_eq]
  exact not_congr (by simp only [@eq_comm Text, @eq_comm (Option Text)])

end OrbitGraph.Extract
