import OrbitGraph.Sync.Scanner

/-!
Pass 1: one transaction for each file the scan found deleted, new or modified.

A written file is not yet current: its row carries the pending hash and
modification time until pass 2 commits. The files are extracted in parallel and
in chunks, but written in the order of their paths, so pass 1 is the list of its
transactions; a sync that stops inside it has run a prefix of that list.
-/

namespace OrbitGraph.Sync

open Lib

/-- A file of the worktree with the rows its extractor yields. -/
structure SourceFile where
  filePath : Text
  lang : Text
  contentHash : Bytes
  mtimeNs : Nat
  byteLen : Nat
  rows : ExtractedFile

/-- The references pass 2 resolves for a written file, and the content identity
that makes its row current. -/
structure FileRefs where
  filePath : Text
  refs : List RawRef
  contentHash : Bytes
  mtimeNs : Nat

def SourceFile.fileRefs (file : SourceFile) : FileRefs :=
  ⟨file.filePath, file.rows.refs, file.contentHash, file.mtimeNs⟩

/-- `ExtractFileError::new(..).with_kind(..)` for a file past the size cap. -/
def oversizeError (path : Text) : ExtractFileError :=
  ⟨"read source file", path ++ " exceeds the 4194304-byte cap", "oversize"⟩

def missingError (path : Text) : ExtractFileError :=
  ⟨"read source file", path ++ ": No such file or directory", "not_found"⟩

/-- `DefaultExtractorBackend::extract`. -/
def extractSource (tools : Tools) (w : Worktree) (path : Text) :
    Except ExtractFileError SourceFile :=
  match w.file? path with
  | none => .error (missingError path)
  | some file =>
    match readCapped file.content with
    | .error error =>
      .error ⟨"read source file", path ++ ": " ++ error.message, error.kind⟩
    | .ok none => .error (oversizeError path)
    | .ok (some bytes) =>
      match tools.extractors.languageFor path with
      | none =>
        .error ⟨"select extractor", "no registered extractor for " ++ path,
          "unsupported"⟩
      | some lang =>
        match tools.extractors.extract path bytes with
        | .error error => .error error
        | .ok rows =>
          .ok
            { filePath := path, lang, rows, mtimeNs := file.mtimeNs
              contentHash := tools.hasher.hash bytes, byteLen := bytes.length }

/-- What a written file is: its content, and what the extractors make of it. -/
theorem extractSource_eq_ok {tools : Tools} {w : Worktree} {path : Text} {source : SourceFile}
    (h : extractSource tools w path = .ok source) :
    ∃ file bytes, w.file? path = some file ∧ readCapped file.content = .ok (some bytes) ∧
      tools.extractors.languageFor path = some source.lang ∧ tools.extractors.extract path bytes = .ok source.rows ∧
      source.filePath = path ∧ source.contentHash = tools.hasher.hash bytes ∧
      source.mtimeNs = file.mtimeNs ∧ source.byteLen = bytes.length := by
  unfold extractSource at h
  cases hFile : w.file? path with
  | none => simp [hFile] at h
  | some file =>
    rcases hRead : readCapped file.content with error | _ | bytes
    · simp [hFile, hRead] at h
    · simp [hFile, hRead] at h
    · cases hLang : tools.extractors.languageFor path with
      | none => simp [hFile, hRead, hLang] at h
      | some lang =>
        cases hRows : tools.extractors.extract path bytes with
        | error error => simp [hFile, hRead, hLang, hRows] at h
        | ok rows =>
          simp only [hFile, hRead, hLang, hRows, Except.ok.injEq] at h
          subst h
          exact ⟨file, bytes, rfl, hRead, rfl, hRows, rfl, rfl, rfl, rfl⟩

inductive FileTransaction where
  | delete (path : Text)
  | write (file : SourceFile)

namespace FileTransaction

def path : FileTransaction → Text
  | .delete path => path
  | .write file => file.filePath

/-- The row of a file that is written but not yet current. -/
def pendingRow (file : SourceFile) : FileRow :=
  ⟨file.filePath, pendingContentHash, pendingMtimeNs, file.lang, file.byteLen⟩

def newSymbols (idx : Index) (file : SourceFile) : List SymbolRow :=
  numberSymbols file.filePath (idx.deleteFile file.filePath).nextSymbolId file.rows.symbols

/-- `delete_file_transaction` and `write_file_transaction`. A write deletes the
prior row first, with everything that hangs off it. -/
def apply (idx : Index) : FileTransaction → Index
  | .delete path => idx.deleteFile path
  | .write file =>
    let base := idx.deleteFile file.filePath
    { base with
      files := base.files ++ [pendingRow file]
      symbols := base.symbols ++ newSymbols idx file
      imports := base.imports ++ file.rows.imports.map (RawImport.row file.filePath) }

section Write

variable (idx : Index) (source : SourceFile) (file : Text)

@[simp]
theorem fileRow_write :
    ((write source).apply idx).fileRow file =
      if file = source.filePath then some (pendingRow source) else idx.fileRow file := by
  have deleted := idx.fileRow_deleteFile source.filePath file
  simp only [Index.fileRow, apply, List.find?_append] at deleted ⊢
  rw [deleted]
  by_cases h : file = source.filePath
  · simp [h, pendingRow]
  · have other : source.filePath ≠ file := fun eq => h eq.symm
    simp [h, pendingRow, other]

@[simp]
theorem symbolsOf_write :
    ((write source).apply idx).symbolsOf file =
      if file = source.filePath then newSymbols idx source else idx.symbolsOf file := by
  have deleted := idx.symbolsOf_deleteFile source.filePath file
  have own : (newSymbols idx source).filter (fun row => row.filePath = file) =
      if file = source.filePath then newSymbols idx source else [] := by
    split
    · next h =>
        refine List.filter_eq_self.mpr fun s hs => ?_
        simp [numberSymbols_filePath hs, h]
    · next h =>
        refine List.filter_eq_nil_iff.mpr fun s hs => ?_
        simp [numberSymbols_filePath hs, Ne.symm h]
  simp only [Index.symbolsOf, apply, List.filter_append] at deleted ⊢
  rw [deleted, own]
  split <;> simp

@[simp]
theorem importsOf_write :
    ((write source).apply idx).importsOf file =
      if file = source.filePath then source.rows.imports.map (RawImport.row source.filePath)
      else idx.importsOf file := by
  have deleted := idx.importsOf_deleteFile source.filePath file
  have own : (source.rows.imports.map (RawImport.row source.filePath)).filter
      (fun row => row.fromFile = file) =
      if file = source.filePath then source.rows.imports.map (RawImport.row source.filePath)
      else [] := by
    split
    · next h =>
        refine List.filter_eq_self.mpr fun i hi => ?_
        obtain ⟨raw, -, rfl⟩ := List.mem_map.mp hi
        simp [RawImport.row, h]
    · next h =>
        refine List.filter_eq_nil_iff.mpr fun i hi => ?_
        obtain ⟨raw, -, rfl⟩ := List.mem_map.mp hi
        simp [RawImport.row, Ne.symm h]
  simp only [Index.importsOf, apply, List.filter_append] at deleted ⊢
  rw [deleted, own]
  split <;> simp

@[simp]
theorem refsOf_write :
    ((write source).apply idx).refsOf file =
      if file = source.filePath then [] else idx.refsOf file :=
  idx.refsOf_deleteFile source.filePath file

end Write

end FileTransaction

namespace Pass1

variable (tools : Tools) (w : Worktree) (diff : Diff)

def changedFiles : List Text := sortPaths (diff.modified ++ diff.new).dedup

/-- The changed files that are extracted, in the order they are written. A file
whose extraction fails is not written and keeps the rows it has. -/
def extractedFiles : List SourceFile :=
  (changedFiles diff).filterMap fun path =>
    match extractSource tools w path with
    | .ok file => some file
    | .error _ => none

/-- The transactions of a whole pass, in order: the deletions, then the
writes. -/
def transactions : List FileTransaction :=
  diff.deleted.map .delete ++ (extractedFiles tools w diff).map .write

def markPending (idx : Index) : Index := { idx with syncPending := true }

/-- The index after pass 1 has committed `ts`. -/
def runTransactions (ts : List FileTransaction) (idx : Index) : Index :=
  ts.foldl FileTransaction.apply (markPending idx)

/-- The index after a whole pass. -/
def run (idx : Index) : Index := runTransactions (transactions tools w diff) idx

/-- The references of the written files, for pass 2. -/
def refs : List FileRefs := (extractedFiles tools w diff).map SourceFile.fileRefs

end Pass1

end OrbitGraph.Sync
