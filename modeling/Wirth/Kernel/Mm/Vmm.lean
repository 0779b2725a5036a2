import Wirth.Lib.X86.Paging

namespace Wirth.Kernel.Mm

open Wirth.Lib.X86

def kMaxTables : Nat := 64

def invalidTableIndex : Nat := 0xFFFF

structure TablePool where
  address : Word
  aligned : frameOf address = address
  fits : address.toNat + kMaxTables * 4096 ≤ 2 ^ 32

def TablePool.table (pool : TablePool) (i : Nat) : Word := pool.address + BitVec.ofNat 32 (4096 * i)

structure Vmm where
  pool : TablePool
  kernelPageDirectory : Table
  pageTables : Nat → Table
  tableForDir : Fin 1024 → Nat
  tablesInUse : Nat

namespace Vmm

def allocPageTable (s : Vmm) : Option (Word × Vmm) :=
  if kMaxTables ≤ s.tablesInUse then none
  else some (s.pool.table s.tablesInUse, { s with
    pageTables := Function.update s.pageTables s.tablesInUse fun _ => 0
    tablesInUse := s.tablesInUse + 1 })

def addTable (s : Vmm) (dir : Fin 1024) (write user : Bool) : Option Vmm :=
  match s.allocPageTable with
  | none => none
  | some (table, s) => some { s with
      tableForDir := Function.update s.tableForDir dir (s.tablesInUse - 1)
      kernelPageDirectory :=
        Function.update s.kernelPageDirectory dir (frameOf table ||| entryFlags write user) }

def setEntry (s : Vmm) (virt entry : Word) : Vmm :=
  let table := s.tableForDir (dirIndex virt)
  { s with
    pageTables := Function.update s.pageTables table
      (Function.update (s.pageTables table) (tblIndex virt) entry) }

def mapPage (s : Vmm) (virt phys : Word) (write user : Bool) : Bool × Vmm :=
  if s.tableForDir (dirIndex virt) = invalidTableIndex then
    match s.addTable (dirIndex virt) write user with
    | none => (false, s)
    | some s => (true, s.setEntry virt (frameOf phys ||| entryFlags write user))
  else (true, s.setEntry virt (frameOf phys ||| entryFlags write user))

def entry (s : Vmm) (virt : Word) : Word :=
  s.pageTables (s.tableForDir (dirIndex virt)) (tblIndex virt)

def unmapPage (s : Vmm) (virt : Word) : Bool × Vmm :=
  if s.tableForDir (dirIndex virt) = invalidTableIndex then (false, s)
  else if isPresent (s.entry virt) then (true, s.setEntry virt 0)
  else (false, s)

def virtToPhys (s : Vmm) (virt : Word) : Word :=
  if s.tableForDir (dirIndex virt) = invalidTableIndex then 0
  else if isPresent (s.entry virt) then frameOf (s.entry virt) ||| pageOffset virt
  else 0

-- The first loop of `init`: the tables of the pool keep what they hold.
def cleared (s : Vmm) : Vmm :=
  { s with
    kernelPageDirectory := fun _ => 0
    tableForDir := fun _ => invalidTableIndex
    tablesInUse := 0 }

@[irreducible] def identityAddresses : List Word :=
  (List.range (64 * 1024 * 1024 / 4096)).map fun i => BitVec.ofNat 32 (4096 * i)

def init (s : Vmm) : Vmm :=
  identityAddresses.foldl (fun s addr => (s.mapPage addr addr true false).2) s.cleared

end Vmm

end Wirth.Kernel.Mm
