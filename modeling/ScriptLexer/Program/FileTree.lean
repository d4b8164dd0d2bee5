import ScriptLexer.Program.Path
import ScriptLexer.Program.World

namespace ScriptLexer

/-- A file system held in memory, by the components of absolute paths. What leads to a directory or
to a file is itself a directory. -/
structure FileTree where
  directories : List (List Text)
  files : List (List Text × Reading)

namespace FileTree

/-- The memory of the process: a regular file that cannot be read from its start. -/
def processMemory : List Text × Reading :=
  (["proc".toList, "self".toList, "mem".toList],
    .failed "Input/output error (os error 5)".toList)

def below (root : List Text) (files : List (Text × ByteArray)) (directories : List Text) :
    FileTree :=
  let place := fun path : Text => root ++ (Path.components path).filter (!Path.isIdle ·)
  ⟨root :: directories.map place,
    processMemory :: files.map fun file => (place file.1, .bytes file.2)⟩

def isDirectory (t : FileTree) (place : List Text) : Bool :=
  t.directories.any (place.isPrefixOf ·) || t.files.any (place.isPrefixOf ·.1.dropLast)

def entryAt (t : FileTree) (place : List Text) : Entry :=
  if t.isDirectory place then .irregular
  else match t.files.find? (·.1 = place) with
    | some file => .file file.2
    | none => .missing

def walk (t : FileTree) : List Text → List Text → Entry
  | place, [] => t.entryAt place
  | place, c :: cs =>
    if !t.isDirectory place then .missing
    else if Path.isIdle c then walk t place cs
    else if c = ['.', '.'] then walk t place.dropLast cs
    else walk t (place ++ [c]) cs

def maxPathBytes : Nat := 4095

def entry (t : FileTree) (workingDirectory path : Text) : Entry :=
  if path = [] ∨ maxPathBytes < path.byteLength then .missing
  else
    let start := if Path.isAbsolute path then [] else
      (Path.components workingDirectory).filter (!Path.isIdle ·)
    t.walk start (Path.components path)

def IsPlain (c : Text) : Prop := '/' ∉ c ∧ Path.isIdle c = false ∧ c ≠ ['.', '.']

theorem isDirectory_of_mem_files {t : FileTree} {file : List Text × Reading} (h : file ∈ t.files)
    {place : List Text} (hplace : place <+: file.1.dropLast) : t.isDirectory place := by
  rw [isDirectory, Bool.or_eq_true, List.any_eq_true, List.any_eq_true]
  exact .inr ⟨file, h, List.isPrefixOf_iff_prefix.mpr hplace⟩

theorem walk_of_mem_files {t : FileTree} {place rest : List Text} {reading : Reading}
    (h : (place ++ rest, reading) ∈ t.files) (hplain : ∀ c ∈ rest, IsPlain c) :
    t.walk place rest = t.entryAt (place ++ rest) := by
  induction rest generalizing place with
  | nil => rw [walk, List.append_nil]
  | cons c rest ih =>
    obtain ⟨⟨-, hidle, hparent⟩, hrest⟩ := List.forall_mem_cons.mp hplain
    have hplace : place <+: (place ++ c :: rest).dropLast := by
      rw [List.dropLast_append_of_ne_nil (List.cons_ne_nil c rest)]
      exact List.prefix_append place _
    have hdirectory := isDirectory_of_mem_files h hplace
    rw [List.append_cons] at h
    simp only [walk, hdirectory, hidle, hparent, Bool.not_true, Bool.false_eq_true, if_false]
    rw [ih h hrest, List.append_cons place c rest]

theorem entryAt_of_mem_files {t : FileTree} {place : List Text} {reading : Reading}
    (h : (place, reading) ∈ t.files) (honly : ∀ other, (place, other) ∈ t.files → other = reading)
    (hfile : ¬t.isDirectory place) : t.entryAt place = .file reading := by
  rw [entryAt, if_neg hfile]
  cases hfind : t.files.find? (·.1 = place) with
  | none => simpa using List.find?_eq_none.mp hfind _ h
  | some file =>
    obtain rfl : file.1 = place := by simpa using List.find?_some hfind
    exact congrArg Entry.file (honly file.2 (List.mem_of_find?_eq_some hfind))

theorem entry_of_mem_files {t : FileTree} {place : List Text} {reading : Reading}
    (h : (place, reading) ∈ t.files) (honly : ∀ other, (place, other) ∈ t.files → other = reading)
    (hfile : ¬t.isDirectory place) (hplain : ∀ c ∈ place, IsPlain c) (hne : place ≠ [])
    (hlength : Text.byteLength ('/' :: ['/'].intercalate place) ≤ maxPathBytes) (directory : Text) :
    t.entry directory ('/' :: ['/'].intercalate place) = .file reading := by
  have hcomponents : Path.components ('/' :: ['/'].intercalate place) = [] :: place := by
    have hslash : ∀ c ∈ [] :: place, '/' ∉ c :=
      List.forall_mem_cons.mpr ⟨List.not_mem_nil, fun c hc => (hplain c hc).1⟩
    have hsplit := List.splitOn_intercalate '/' hslash (List.cons_ne_nil [] place)
    rwa [List.intercalate_cons_of_ne_nil hne] at hsplit
  have hroot : t.isDirectory [] := isDirectory_of_mem_files h (List.nil_prefix)
  have hidle : Path.isIdle [] = true := rfl
  rw [entry, if_neg (by simpa using hlength), hcomponents]
  simp only [Path.isAbsolute, List.head?_cons, decide_true, if_true, walk, hroot, hidle,
    Bool.not_true, Bool.false_eq_true, if_false]
  have hwalk : t.walk [] place = t.entryAt ([] ++ place) := walk_of_mem_files h hplain
  rw [hwalk, List.nil_append, entryAt_of_mem_files h honly hfile]

theorem entry_processMemory (root directory : Text) :
    (below [root] [] []).entry directory "/proc/self/mem".toList = .file processMemory.2 := by
  have hplain : ∀ c ∈ processMemory.1, IsPlain c := by
    simp [processMemory, IsPlain, Path.isIdle]
  have hfile : ¬(below [root] [] []).isDirectory processMemory.1 := by
    simp [isDirectory, below, processMemory]
  have honly : ∀ other, (processMemory.1, other) ∈ (below [root] [] []).files →
      other = processMemory.2 := by
    simp [below, processMemory]
  exact entry_of_mem_files List.mem_cons_self honly hfile hplain (by decide) (by decide) directory

end FileTree

end ScriptLexer
