import OrbitGraph.History.Redaction
import OrbitGraph.Lib.Json
import OrbitGraph.Lib.SortedMap

/-!
The symbols of a target tree, and the file that caches them.

The table is extracted from the blobs of the tree, and its signatures are redacted before
it is used or cached. The file leaves out what is missing, and the path of a symbol that
is in the file it is listed under; to read a file that was written gives the table.
-/

namespace OrbitGraph.Recommend

open Lib History

def targetSymbolCacheFormat : UInt32 := 1

/-! ### The table -/

/-- A symbol as an extractor yields it. -/
structure RawSymbol where
  filePath : Text
  name : Text
  qualified : Text
  kind : Text
  spanStart : UInt64
  spanEnd : UInt64
  signature : Option Text
  parentSymbol : Option Text

abbrev SymbolTable := SortedMap Text (List RawSymbol)

/-- A language: the files that it supports, and the symbols that it finds in one. -/
structure Extractor where
  supports : Text → Bool
  extract : Text → List UInt8 → List RawSymbol

/-- What a file adds to the table, unless its blob cannot be read: nothing if no language supports it, if it
is binary, or if no symbols are found in it. -/
def extractFile (extractors : List Extractor) (blob : Oid → Option (List UInt8)) (symbols : SymbolTable)
    (file : Text × Oid) : Option SymbolTable :=
  match extractors.find? fun extractor => extractor.supports file.1 with
  | none => some symbols
  | some extractor =>
    (blob file.2).map fun content =>
      if content.contains 0 then symbols
      else if (extractor.extract file.1 content).isEmpty then symbols
      else symbols.insert file.1 (extractor.extract file.1 content)

def extractSymbols (extractors : List Extractor) (blob : Oid → Option (List UInt8)) (files : SortedMap Text Oid) :
    Option SymbolTable :=
  files.entries.foldlM (extractFile extractors blob) .empty

def redactCachedSignatures (symbols : SymbolTable) : SymbolTable :=
  symbols.mapValues fun fileSymbols =>
    fileSymbols.map fun symbol => { symbol with signature := symbol.signature.map redact }

/-! ### The file -/

structure CachedSymbol where
  filePath : Option Text
  name : Text
  qualified : Text
  kind : Text
  spanStart : UInt64
  spanEnd : UInt64
  signature : Option Text
  parentSymbol : Option Text

structure CachedFileSymbols where
  path : Text
  symbols : List CachedSymbol

structure TargetSymbolCache where
  format : UInt32
  extractorVersion : UInt32
  tree : Text
  files : List CachedFileSymbols

def optionalField (name : String) (value : Option Text) : List (Text × Json) :=
  value.toList.map fun text => (name.toList, .string text)

def CachedSymbol.encode (symbol : CachedSymbol) : Json :=
  .object (optionalField "file_path" symbol.filePath ++
    [("name".toList, .string symbol.name),
      ("qualified".toList, .string symbol.qualified),
      ("kind".toList, .string symbol.kind),
      ("span_start".toList, .nat symbol.spanStart),
      ("span_end".toList, .nat symbol.spanEnd)] ++
    optionalField "signature" symbol.signature ++ optionalField "parent_symbol" symbol.parentSymbol)

def CachedFileSymbols.encode (file : CachedFileSymbols) : Json :=
  .object
    [("path", .string file.path),
      ("symbols", .array (file.symbols.map CachedSymbol.encode))]

def TargetSymbolCache.encode (cache : TargetSymbolCache) : Json :=
  .object
    [("format", .nat cache.format.toUInt64),
      ("extractor_version", .nat cache.extractorVersion.toUInt64),
      ("tree", .string cache.tree),
      ("files", .array (cache.files.map CachedFileSymbols.encode))]

def CachedSymbol.decode (value : Json) : Except SerdeError CachedSymbol := do
  let values ← value.leadingFields
    (["file_path", "name", "qualified", "kind", "span_start", "span_end", "signature", "parent_symbol"].map
      String.toList)
  let filePath ← Json.optional values "file_path" Json.decodeString
  let name ← Json.required values "name" Json.decodeString
  let qualified ← Json.required values "qualified" Json.decodeString
  let kind ← Json.required values "kind" Json.decodeString
  let spanStart ← Json.required values "span_start" Json.decodeU64
  let spanEnd ← Json.required values "span_end" Json.decodeU64
  let signature ← Json.optional values "signature" Json.decodeString
  let parentSymbol ← Json.optional values "parent_symbol" Json.decodeString
  return { filePath, name, qualified, kind, spanStart, spanEnd, signature, parentSymbol }

def CachedFileSymbols.decode (value : Json) : Except SerdeError CachedFileSymbols := do
  let values ← value.fields (["path", "symbols"].map String.toList)
  let path ← Json.required values "path" Json.decodeString
  let symbols ← Json.required values "symbols" (Json.decodeArray CachedSymbol.decode)
  return { path, symbols }

def TargetSymbolCache.decode (value : Json) : Except SerdeError TargetSymbolCache := do
  let values ← value.fields (["format", "extractor_version", "tree", "files"].map String.toList)
  let format ← Json.required values "format" Json.decodeU32
  let extractorVersion ← Json.required values "extractor_version" Json.decodeU32
  let tree ← Json.required values "tree" Json.decodeString
  let files ← Json.required values "files" (Json.decodeArray CachedFileSymbols.decode)
  return { format, extractorVersion, tree, files }

def RawSymbol.cached (path : Text) (symbol : RawSymbol) : CachedSymbol where
  filePath := if symbol.filePath ≠ path then some symbol.filePath else none
  name := symbol.name
  qualified := symbol.qualified
  kind := symbol.kind
  spanStart := symbol.spanStart
  spanEnd := symbol.spanEnd
  signature := symbol.signature
  parentSymbol := symbol.parentSymbol

def CachedSymbol.restored (path : Text) (symbol : CachedSymbol) : RawSymbol where
  filePath := symbol.filePath.getD path
  name := symbol.name
  qualified := symbol.qualified
  kind := symbol.kind
  spanStart := symbol.spanStart
  spanEnd := symbol.spanEnd
  signature := symbol.signature
  parentSymbol := symbol.parentSymbol

/-- `write_target_symbol_cache`: what is written for a table. -/
def targetSymbolCache (extractorVersion : UInt32) (tree : Oid) (symbols : SymbolTable) : Json :=
  TargetSymbolCache.encode
    { format := targetSymbolCacheFormat
      extractorVersion
      tree := tree.hex
      files := symbols.entries.map fun file => ⟨file.1, file.2.map (RawSymbol.cached file.1)⟩ }

/-- `read_target_symbol_cache`, of a file that holds a value if it is JSON at all. -/
def readTargetSymbolCache (extractorVersion : UInt32) (tree : Oid) (content : Option Json) : Option SymbolTable := do
  let cache ← (TargetSymbolCache.decode (← content)).toOption
  if cache.format ≠ targetSymbolCacheFormat ∨ cache.extractorVersion ≠ extractorVersion ∨ cache.tree ≠ tree.hex then
    none
  else
    some (.ofList (cache.files.map fun file => (file.path, file.symbols.map (CachedSymbol.restored file.path))))

/-! ### Reading what was written -/

theorem restored_cached (path : Text) (symbol : RawSymbol) : (symbol.cached path).restored path = symbol := by
  cases symbol
  simp only [RawSymbol.cached, CachedSymbol.restored]
  split <;> simp_all

theorem decode_encode_symbol (symbol : CachedSymbol) : CachedSymbol.decode symbol.encode = .ok symbol := by
  obtain ⟨filePath, name, qualified, kind, spanStart, spanEnd, signature, parentSymbol⟩ := symbol
  cases filePath <;> cases signature <;> cases parentSymbol <;> rfl

theorem decode_encode_file (file : CachedFileSymbols) : CachedFileSymbols.decode file.encode = .ok file := by
  have symbols : Json.decodeArray CachedSymbol.decode (.array (file.symbols.map CachedSymbol.encode)) =
      .ok file.symbols := Json.decodeArray_map decode_encode_symbol file.symbols
  have path : Json.decodeString (.string file.path) = .ok file.path := rfl
  calc CachedFileSymbols.decode file.encode
      = (do
          let path ← Json.decodeString (.string file.path)
          let symbols ← Json.decodeArray CachedSymbol.decode (.array (file.symbols.map CachedSymbol.encode))
          return { path, symbols }) := rfl
    _ = .ok file := by
        rw [path, symbols]
        rfl

theorem decode_encode (cache : TargetSymbolCache) : TargetSymbolCache.decode cache.encode = .ok cache := by
  have files : Json.decodeArray CachedFileSymbols.decode (.array (cache.files.map CachedFileSymbols.encode)) =
      .ok cache.files := Json.decodeArray_map decode_encode_file cache.files
  calc TargetSymbolCache.decode cache.encode
      = (do
          let format ← Json.decodeU32 (.nat cache.format.toUInt64)
          let extractorVersion ← Json.decodeU32 (.nat cache.extractorVersion.toUInt64)
          let tree ← Json.decodeString (.string cache.tree)
          let files ← Json.decodeArray CachedFileSymbols.decode (.array (cache.files.map CachedFileSymbols.encode))
          return { format, extractorVersion, tree, files }) := rfl
    _ = .ok cache := by
        rw [Json.decodeU32_toUInt64, Json.decodeU32_toUInt64, files]
        rfl

theorem read_targetSymbolCache (extractorVersion : UInt32) (tree : Oid) (symbols : SymbolTable) :
    readTargetSymbolCache extractorVersion tree (some (targetSymbolCache extractorVersion tree symbols)) =
      some symbols := by
  have files : ((symbols.entries.map fun file =>
      (⟨file.1, file.2.map (RawSymbol.cached file.1)⟩ : CachedFileSymbols)).map fun file =>
        (file.path, file.symbols.map (CachedSymbol.restored file.path))) = symbols.entries := by
    rw [List.map_map]
    refine (List.map_congr_left fun file _ => ?_).trans (List.map_id _)
    refine Prod.ext rfl ?_
    exact (List.map_map ..).trans ((List.map_congr_left fun symbol _ => restored_cached _ symbol).trans (List.map_id _))
  simp only [readTargetSymbolCache, targetSymbolCache, Option.bind_eq_bind, Option.bind_some, decode_encode,
    Except.toOption]
  rw [if_neg (by simp), files, SortedMap.ofList_entries]

end OrbitGraph.Recommend
