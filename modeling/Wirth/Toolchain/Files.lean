import Wirth.Lib.OrdMap
import Wirth.Toolchain.Util

namespace Wirth.Toolchain

open Wirth.Lib

-- The operating system's files, as far as the tools use them. Opening may fail, and a write
-- changes no file but the one it names.
class FileSystem (F : Type) where
  contents : F → Str → Option Str
  createDirectories : F → Str → Option F
  createParents : F → Str → Option F
  truncate : F → Str → Option F
  write : F → Str → Str → Option F
  sameFile : Str → Str → Prop
  contents_createDirectories : ∀ {fs fs' : F} {path : Str}, createDirectories fs path = some fs' →
    ∀ other, contents fs' other = contents fs other
  contents_createParents : ∀ {fs fs' : F} {path : Str}, createParents fs path = some fs' →
    ∀ other, contents fs' other = contents fs other
  contents_truncate : ∀ {fs fs' : F} {path other : Str}, truncate fs path = some fs' →
    ¬sameFile path other → contents fs' other = contents fs other
  contents_write : ∀ {fs fs' : F} {path other text : Str}, write fs path text = some fs' →
    ¬sameFile path other → contents fs' other = contents fs other

instance flatFiles : FileSystem (OrdMap Str Str) where
  contents fs path := fs.find? path
  createDirectories fs _ := some fs
  createParents fs _ := some fs
  truncate fs path := some (fs.insert path [])
  write fs path text := some (fs.insert path text)
  sameFile path other := path = other
  contents_createDirectories h _ := by cases h; rfl
  contents_createParents h _ := by cases h; rfl
  contents_truncate h hne := by
    cases h
    exact OrdMap.find?_insert_of_ne _ _ (Ne.symm hne)
  contents_write h hne := by
    cases h
    exact OrdMap.find?_insert_of_ne _ _ (Ne.symm hne)

section Access

variable {F : Type} [FileSystem F]

def orThrow {α : Type} (what : Str) : Option α → Result α
  | some a => .ok a
  | none => .error (.thrown what)

def readText (fs : F) (path : Str) : Result Str :=
  orThrow (lit "falha ao abrir arquivo: " ++ path) (FileSystem.contents fs path)

def writeText (fs : F) (path text : Str) : Result F := do
  let fs ← orThrow (lit "filesystem error: cannot create directories") (FileSystem.createParents fs path)
  let fs ← orThrow (lit "falha ao escrever arquivo: " ++ path) (FileSystem.truncate fs path)
  orThrow (lit "falha ao finalizar escrita: " ++ path) (FileSystem.write fs path text)

theorem orThrow_eq_ok {α : Type} {what : Str} {o : Option α} {a : α} :
    orThrow what o = .ok a ↔ o = some a := by
  cases o <;> simp [orThrow]

theorem readText_writeText {fs fs' : F} {path other text : Str}
    (h : writeText fs path text = .ok fs') (hne : ¬FileSystem.sameFile F path other) :
    readText fs' other = readText fs other := by
  simp only [writeText, bind_eq_ok, orThrow_eq_ok] at h
  obtain ⟨made, hmade, opened, hopened, hwritten⟩ := h
  rw [readText, FileSystem.contents_write hwritten hne, FileSystem.contents_truncate hopened hne,
    FileSystem.contents_createParents hmade, readText]

end Access

-- Lines end in a line feed, which a carriage return may precede.

def dropReturn (line : Str) : Str :=
  if line.getLast? = some (chr '\r') then line.dropLast else line

def splitLines (text : Str) : List Str × Str :=
  text.foldl (fun st ch =>
    if ch = chr '\n' then (st.1 ++ [dropReturn st.2], []) else (st.1, st.2 ++ [ch])) ([], [])

def textLines (text : Str) : List Str :=
  let (lines, current) := splitLines text
  if current ≠ [] ∨ text.getLast? = some (chr '\n') then lines ++ [dropReturn current] else lines

def readLines {F : Type} [FileSystem F] (fs : F) (path : Str) : Result (List Str) := do
  .ok (textLines (← readText fs path))

-- The name of a file without its directories, and without its last extension.

def filename (path : Str) : Str := path.rtakeWhile fun c => c ≠ chr '/'

def stem (path : Str) : Str :=
  let name := filename path
  let upToDot := name.rdropWhile fun c => c ≠ chr '.'
  if name = lit "." ∨ name = lit ".." ∨ upToDot.length ≤ 1 then name else upToDot.dropLast

def joinPath (dir name : Str) : Str :=
  if dir = [] then name
  else if dir.getLast? = some (chr '/') then dir ++ name
  else dir ++ lit "/" ++ name

example : stem (lit "out/a.mcr.asm") = lit "a.mcr" := by decide

end Wirth.Toolchain
