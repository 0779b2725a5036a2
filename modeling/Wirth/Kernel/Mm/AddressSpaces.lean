import Wirth.Kernel.Mm.PageMap

namespace Wirth.Kernel.Mm

open Wirth.Lib.X86

-- The page directories of the kernel: its own, and the copies that processes got.
structure Spaces where
  vmm : Vmm
  clones : List Table

inductive SpaceCall where
  | page (c : PageCall)
  | clone (allocated : Bool)

namespace Spaces

def createKernelCloneAddressSpace (s : Spaces) (allocated : Bool) : Option Table × Spaces :=
  if allocated then
    (some s.vmm.kernelPageDirectory, { s with clones := s.vmm.kernelPageDirectory :: s.clones })
  else (none, s)

def call (s : Spaces) : SpaceCall → Spaces
  | .page c => { s with vmm := (s.vmm.call c).2 }
  | .clone allocated => (s.createKernelCloneAddressSpace allocated).2

def boot (v : Vmm) : Spaces := ⟨v.init, []⟩

def run (s : Spaces) (calls : List SpaceCall) : Spaces := calls.foldl call s

-- The page tables of the pool, as the processor finds them: the kernel is mapped where it is.
def tablesAt (v : Vmm) (address : Word) : Option Table :=
  ((List.range kMaxTables).find? fun i => v.pool.table i = address).map v.pageTables

def translate (s : Spaces) (directory : Table) (virt : Word) : Option Word :=
  walk (tablesAt s.vmm) directory virt

-- What the kernel has mapped is mapped in the same way for every process.
def Coherent (s : Spaces) : Prop :=
  ∀ virt frame, s.translate s.vmm.kernelPageDirectory virt = some frame →
    ∀ directory ∈ s.clones, s.translate directory virt = some frame

-- The call fills an empty slot of the kernel's directory, which others have copied already.
def Splits (s : Spaces) : SpaceCall → Prop
  | .page (.map virt _ _ _) =>
      s.clones ≠ [] ∧ s.vmm.tableForDir (dirIndex virt) = invalidTableIndex ∧
        s.vmm.tablesInUse < kMaxTables
  | _ => False

def Mirrored (s : Spaces) : Prop :=
  s.vmm.Sound ∧ ∀ directory ∈ s.clones, directory = s.vmm.kernelPageDirectory

section Tables

variable {v : Vmm}

theorem table_toNat (pool : TablePool) {i : Nat} (hi : i < kMaxTables) :
    (pool.table i).toNat = pool.address.toNat + 4096 * i := by
  have hfits := pool.fits
  rw [TablePool.table, BitVec.toNat_add, BitVec.toNat_ofNat]
  omega

theorem frameOf_table (pool : TablePool) {i : Nat} (hi : i < kMaxTables) :
    frameOf (pool.table i) = pool.table i := by
  rw [frameOf_eq_self_iff, table_toNat pool hi]
  exact Nat.dvd_add (frameOf_eq_self_iff.mp pool.aligned) (Nat.dvd_mul_right 4096 i)

theorem tablesAt_table {i : Nat} (hi : i < kMaxTables) :
    tablesAt v (v.pool.table i) = some (v.pageTables i) := by
  cases hfind : (List.range kMaxTables).find? fun j => v.pool.table j = v.pool.table i with
  | none =>
    have := List.find?_eq_none.mp hfind i (List.mem_range.mpr hi)
    simp at this
  | some j =>
    have hj : v.pool.table j = v.pool.table i := by simpa using List.find?_some hfind
    have hlt : j < kMaxTables := List.mem_range.mp (List.mem_of_find?_eq_some hfind)
    have heq : j = i := by
      have := congrArg BitVec.toNat hj
      rw [table_toNat _ hlt, table_toNat _ hi] at this
      omega
    rw [tablesAt, hfind, heq]
    rfl

theorem walk_kernel (hv : v.Sound) (virt : Word) :
    walk (tablesAt v) v.kernelPageDirectory virt = v.lookup virt := by
  unfold walk Vmm.lookup Vmm.entry
  by_cases habsent : v.tableForDir (dirIndex virt) = invalidTableIndex
  · rw [hv.absent _ habsent]
    simp [habsent]
  · obtain ⟨write, user, hdir⟩ := hv.linked _ habsent
    have hlt := (hv.below _ habsent).trans_le hv.limit
    rw [hdir, isPresent_entryOf, frameOf_entryOf, frameOf_table _ hlt, tablesAt_table hlt]
    simp [habsent]

end Tables

section Steps

variable {s : Spaces}

theorem Mirrored.coherent (h : s.Mirrored) : s.Coherent := by
  intro virt frame hframe directory hmem
  rw [h.2 directory hmem]
  exact hframe

theorem call_directory (c : PageCall)
    (h : s.clones ≠ [] → ¬ s.Splits (.page c)) (hclones : s.clones ≠ []) :
    (s.vmm.call c).2.kernelPageDirectory = s.vmm.kernelPageDirectory := by
  cases c with
  | map virt phys write user =>
    rw [Vmm.call]
    obtain ⟨-, -, heq⟩ | ⟨t, habsent, hadd, -⟩ | ⟨-, heq⟩ :=
      Vmm.mapPage_cases s.vmm virt phys write user
    · rw [heq]
    · exact absurd ⟨hclones, habsent, (Vmm.addTable_eq_some hadd).1⟩ (h hclones)
    · rw [heq]
      rfl
  | unmap virt =>
    rw [Vmm.call]
    obtain heq | ⟨-, heq⟩ := Vmm.unmapPage_cases s.vmm virt
    · rw [heq]
    · rw [heq]
      rfl

theorem Mirrored.call (h : s.Mirrored) {c : SpaceCall} (hc : ¬ s.Splits c) :
    (s.call c).Mirrored := by
  cases c with
  | page c =>
    refine ⟨h.1.call c, ?_⟩
    intro directory hmem
    have hclones : s.clones ≠ [] := List.ne_nil_of_mem hmem
    rw [h.2 directory hmem]
    exact (call_directory c (fun _ => hc) hclones).symm
  | clone allocated =>
    cases allocated with
    | false => exact h
    | true =>
      refine ⟨h.1, ?_⟩
      intro directory hmem
      rcases List.mem_cons.mp hmem with hnew | hold
      · exact hnew
      · exact h.2 directory hold

-- The kernel reaches the page through its new table, a copy has no entry for it.
theorem Mirrored.split {virt phys : Word} {write user : Bool} (h : s.Mirrored)
    (hc : s.Splits (.page (.map virt phys write user))) :
    ∃ directory ∈ s.clones, directory ∈ (s.call (.page (.map virt phys write user))).clones ∧
      (s.call (.page (.map virt phys write user))).translate
        (s.call (.page (.map virt phys write user))).vmm.kernelPageDirectory virt =
          some (frameOf phys) ∧
      (s.call (.page (.map virt phys write user))).translate directory virt = none := by
  obtain ⟨hclones, habsent, hroom⟩ := hc
  obtain ⟨directory, hmem⟩ := List.exists_mem_of_ne_nil _ hclones
  have hdone : (s.vmm.mapPage virt phys write user).1 = true := by
    by_contra hfail
    rw [Bool.not_eq_true, Vmm.mapPage_false_iff] at hfail
    exact absurd hfail.2 (Nat.not_le.mpr hroom)
  refine ⟨directory, hmem, hmem, ?_, ?_⟩
  · have hsound := h.1.call (.map virt phys write user)
    have hlook := Vmm.call_lookup h.1 (.map virt phys write user) virt
    rw [Vmm.call, if_pos ⟨hdone, rfl⟩] at hlook
    rw [translate, Spaces.call, walk_kernel hsound]
    exact hlook
  · have hzero : directory (dirIndex virt) = 0 := by
      rw [h.2 directory hmem]
      exact h.1.absent _ habsent
    rw [translate, walk, hzero]
    rfl

theorem Mirrored.not_coherent {c : SpaceCall} (h : s.Mirrored) (hc : s.Splits c) :
    ¬ (s.call c).Coherent := by
  match c, hc with
  | .page (.map virt phys write user), hc =>
    obtain ⟨directory, -, hmem, hkernel, hclone⟩ := h.split hc
    intro hcoherent
    have := hcoherent virt _ hkernel directory hmem
    rw [hclone] at this
    cases this

end Steps

section Runs

def Always (p : Spaces → Prop) : Spaces → List SpaceCall → Prop
  | s, [] => p s
  | s, c :: calls => p s ∧ Always p (s.call c) calls

def NeverSplits : Spaces → List SpaceCall → Prop
  | _, [] => True
  | s, c :: calls => ¬ s.Splits c ∧ NeverSplits (s.call c) calls

theorem Mirrored.always_iff {s : Spaces} (h : s.Mirrored) (calls : List SpaceCall) :
    Always Coherent s calls ↔ NeverSplits s calls := by
  induction calls generalizing s with
  | nil => exact ⟨fun _ => trivial, fun _ => h.coherent⟩
  | cons c calls ih =>
    by_cases hc : s.Splits c
    · constructor
      · rintro ⟨-, hrest⟩
        have hnext : (s.call c).Coherent := by
          cases calls with
          | nil => exact hrest
          | cons d calls => exact hrest.1
        exact absurd hnext (h.not_coherent hc)
      · rintro ⟨hnot, -⟩
        exact absurd hc hnot
    · have hih := ih (h.call hc)
      exact ⟨fun ha => ⟨hc, hih.mp ha.2⟩, fun hn => ⟨h.coherent, hih.mpr hn.2⟩⟩

theorem boot_vmm (v : Vmm) : (boot v).vmm = v.init := by rw [boot]

theorem mirrored_boot (v : Vmm) : (boot v).Mirrored :=
  ⟨Vmm.Sound.init v, fun _ h => absurd h List.not_mem_nil⟩

end Runs

section HeapPage

def slots (v : Vmm) : Finset (Fin 1024) := Finset.univ.filter fun d => v.tableForDir d ≠ invalidTableIndex

-- There are no more tables in use than slots that have one, and only slots below `k` do.
def Counted (k : Nat) (v : Vmm) : Prop :=
  v.tablesInUse ≤ (slots v).card ∧ ∀ d ∈ slots v, d.val < k

theorem Counted.mapPage {k : Nat} {v : Vmm} {virt phys : Word} {write user : Bool}
    (h : Counted k v) (hk : (dirIndex virt).val < k) :
    Counted k (v.mapPage virt phys write user).2 := by
  obtain ⟨-, -, heq⟩ | ⟨t, habsent, hadd, heq⟩ | ⟨-, heq⟩ := Vmm.mapPage_cases v virt phys write user
  · rw [heq]
    exact h
  · have hslots : slots (t.setEntry virt (entryOf phys write user)) =
        insert (dirIndex virt) (slots v) := by
      have hvalid := Vmm.addTable_valid hadd
      obtain ⟨-, rfl⟩ := Vmm.addTable_eq_some hadd
      ext d
      by_cases hd : d = dirIndex virt
      · subst hd
        simpa [slots, Vmm.setEntry] using hvalid
      · simp [slots, Vmm.setEntry, hd]
    have hnew : dirIndex virt ∉ slots v := by simp [slots, habsent]
    obtain ⟨-, rfl⟩ := Vmm.addTable_eq_some hadd
    rw [heq]
    refine ⟨?_, ?_⟩
    · rw [hslots, Finset.card_insert_of_notMem hnew]
      exact Nat.succ_le_succ h.1
    · intro d hd
      rw [hslots] at hd
      rcases Finset.mem_insert.mp hd with rfl | hold
      · exact hk
      · exact h.2 d hold
  · rw [heq]
    exact h

theorem dirIndex_identity {addr : Word} (h : addr ∈ Vmm.identityAddresses) :
    (dirIndex addr).val < 16 := by
  unfold Vmm.identityAddresses at h
  obtain ⟨i, hi, rfl⟩ := List.mem_map.mp h
  grind [dirIndex_val]

theorem counted_init (v : Vmm) : Counted 16 v.init := by
  apply List.foldlRecOn (motive := Counted 16)
  · refine ⟨Nat.zero_le _, ?_⟩
    intro d hd
    simp [slots, Vmm.cleared] at hd
  · intro t ht addr haddr
    exact ht.mapPage (dirIndex_identity haddr)

theorem Counted.tables {k : Nat} {v : Vmm} (h : Counted k v) : v.tablesInUse ≤ k := by
  have hsub : (slots v).card ≤ (Finset.range k).card := by
    apply Finset.card_le_card_of_injOn (fun d => d.val)
    · intro d hd
      exact Finset.mem_coe.mpr (Finset.mem_range.mpr (h.2 d hd))
    · exact fun _ _ _ _ hde => Fin.ext hde
  rw [Finset.card_range] at hsub
  exact h.1.trans hsub

def linkedPool : TablePool := ⟨0x00200000, by decide, by decide⟩

def blankVmm : Vmm := ⟨linkedPool, fun _ => 0, fun _ _ => 0, fun _ => 0, 0⟩

theorem split_after_clone {s : Spaces} {virt phys : Word} {write user : Bool} (h : s.Mirrored)
    (hempty : s.vmm.tableForDir (dirIndex virt) = invalidTableIndex)
    (hroom : s.vmm.tablesInUse < kMaxTables) :
    ∃ directory ∈ (s.run [.clone true, .page (.map virt phys write user)]).clones,
      (s.run [.clone true, .page (.map virt phys write user)]).translate
        (s.run [.clone true, .page (.map virt phys write user)]).vmm.kernelPageDirectory virt =
          some (frameOf phys) ∧
      (s.run [.clone true, .page (.map virt phys write user)]).translate directory virt = none := by
  have hmirrored : (s.call (.clone true)).Mirrored := h.call id
  have hsplits : (s.call (.clone true)).Splits (.page (.map virt phys write user)) :=
    ⟨List.cons_ne_nil _ _, hempty, hroom⟩
  obtain ⟨directory, -, hmem, hkernel, hclone⟩ := hmirrored.split hsplits
  exact ⟨directory, hmem, hkernel, hclone⟩

end HeapPage

end Spaces

end Wirth.Kernel.Mm
