import Wirth.Toolchain.Object

namespace Wirth.Toolchain.Linker

open Wirth.Lib Wirth.Toolchain.Json

structure ModuleView where
  path : Str
  data : ObjectFile
  base : Int
  deriving DecidableEq

structure Image where
  mode : Str
  size : Int
  entry : Int
  loadAddress : Int
  code : List UInt8
  relocations : List Int
  symbols : List (Str × Int)
  deriving DecidableEq

-- Modules are placed one after another; the second component is the end of the last.
def placeModules (cursor : Int) : List ModuleView → List ModuleView × Int
  | [] => ([], cursor)
  | m :: rest =>
      let (placed, stop) := placeModules (wrap64 (cursor + m.data.size)) rest
      ({ m with base := cursor } :: placed, stop)

-- The two nested loops over the modules: every export, and every relocation.

def exports (modules : List ModuleView) : List (ModuleView × Str) :=
  modules.flatMap fun m => m.data.globals.map fun name => (m, name)

def sites (modules : List ModuleView) : List (ModuleView × Reloc) :=
  modules.flatMap fun m => m.data.relocations.map fun r => (m, r)

def collectGlobal (globals : OrdMap Str Int) (item : ModuleView × Str) :
    Result (OrdMap Str Int) :=
  match item.1.data.symbols.find? item.2 with
  | none => .error (.thrown (item.1.path ++ lit ": símbolo global sem definição: " ++ item.2))
  | some value =>
      if (globals.find? item.2).isSome then
        .error (.thrown (lit "símbolo global duplicado: " ++ item.2))
      else .ok (globals.insert item.2 (wrap64 (item.1.base + value)))

def collectGlobals (modules : List ModuleView) : Result (OrdMap Str Int) :=
  (exports modules).foldlM collectGlobal OrdMap.empty

def copyModules (modules : List ModuleView) (linked : List UInt8) : Result (List UInt8) :=
  modules.foldlM (fun linked m => copyTo linked m.base m.data.code) linked

def resolveSymbol (symbol : Str) (m : ModuleView) (globals : OrdMap Str Int) : Result Int :=
  match m.data.symbols.find? symbol with
  | some value => .ok (wrap64 (m.base + value))
  | none =>
      match globals.find? symbol with
      | some value => .ok value
      | none => .error (.thrown (m.path ++ lit ": símbolo não resolvido: " ++ symbol))

structure Patching where
  linked : List UInt8
  pending : List Int

def applyReloc (mode : Str) (globals : OrdMap Str Int) (st : Patching)
    (site : ModuleView × Reloc) : Result Patching :=
  let m := site.1
  let reloc := site.2
  if reloc.size ≠ 2 then
    .error (.thrown (m.path ++ lit ": relocation size não suportado " ++ decimal reloc.size))
  else do
    let patchPos := wrap64 (m.base + reloc.offset)
    let target := wrap64 ((← resolveSymbol reloc.symbol m globals) + reloc.addend)
    let linked ← storeU16 st.linked patchPos target
    .ok ⟨linked, if mode = relocatable then st.pending ++ [patchPos] else st.pending⟩

def applyRelocs (mode : Str) (globals : OrdMap Str Int) (modules : List ModuleView)
    (linked : List UInt8) : Result Patching :=
  (sites modules).foldlM (applyReloc mode globals) ⟨linked, []⟩

def imageEntry (modules : List ModuleView) (globals : OrdMap Str Int) (entrySymbol : Option Str) :
    Result Int :=
  match entrySymbol with
  | some name =>
      match globals.find? name with
      | none => .error (.thrown (lit "entry symbol não encontrado: " ++ name))
      | some value => .ok value
  | none =>
      match modules with
      | [] => .ok 0
      | first :: _ => .ok (wrap64 (first.base + first.data.entry))

def makeImage (mode : Str) (loadAddress entry : Int) (globals : OrdMap Str Int)
    (patching : Patching) : Image where
  mode := mode
  size := patching.linked.length
  entry := if mode = absolute then wrap64 (entry + loadAddress) else entry
  loadAddress := if mode = absolute then loadAddress else 0
  code := patching.linked
  relocations := if mode = relocatable then patching.pending else []
  symbols := globals.entries.map fun p =>
    (p.1, wrap64 (p.2 + if mode = absolute then loadAddress else 0))

def linkImage (modules : List ModuleView) (mode : Str) (loadAddress : Int)
    (entrySymbol : Option Str) : Result Image :=
  if mode ≠ absolute ∧ mode ≠ relocatable then
    .error (.thrown (lit "modo inválido: use absolute ou relocatable"))
  else do
    let (modules, cursor) := placeModules 0 modules
    let globals ← collectGlobals modules
    let linked ← copyModules modules (List.replicate (← codeSize cursor) 0)
    let patching ← applyRelocs mode globals modules linked
    let entry ← imageEntry modules globals entrySymbol
    .ok (makeImage mode loadAddress entry globals patching)

variable {D : Type}

def pendingJson (offset : Int) : Value D :=
  members [(lit "offset", .ofInt offset), (lit "size", .ofInt 2)]

def imageMembers (image : Image) : List (Str × Value D) :=
  [(lit "format", .str (lit "wirth-exe-v1")), (lit "mode", .str image.mode),
    (lit "size", .ofInt image.size), (lit "entry", .ofInt image.entry),
    (lit "load_address", .ofInt image.loadAddress), (lit "code", codeJson image.code),
    (lit "relocations", .arr (image.relocations.map pendingJson)),
    (lit "symbols", .obj (image.symbols.map fun p => (p.1, .ofInt p.2)))]

def imageJson (image : Image) : Value D := members (imageMembers image)

def linkModules (modules : List ModuleView) (mode : Str) (loadAddress : Int)
    (entrySymbol : Option Str) : Result (Value D) := do
  .ok (imageJson (← linkImage modules mode loadAddress entrySymbol))

end Wirth.Toolchain.Linker
