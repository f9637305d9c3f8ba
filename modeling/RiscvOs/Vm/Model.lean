import RiscvOs.Kernel.Defs
import Mathlib.Data.BitVec

/-!
# Physical pages and page tables

`kernel/pmm.c` and `kernel/vm.c`.  Physical memory is a page of 512 words at every
page address; the free list runs through the first words of the free pages, and a
page table is a page whose words are page table entries.

A function that follows a null pointer returns `none`: `walk_create` and
`create_pagetable` clear the page they allocate without asking whether they got one.
-/

namespace RiscvOs

/-- A `uint64_t`. -/
abbrev Word : Type := BitVec 64

/-- `PGSIZE` -/
abbrev pgsize : ℕ := 4096
/-- `PHYSTOP` -/
abbrev phystop : ℕ := 0x88000000

/-- A page has a first word. -/
instance neZeroWords : NeZero (512 : ℕ) := ⟨by decide⟩

/-- The words of one page. -/
abbrev Page : Type := Fin 512 → Word

/-! ## Page table entries and addresses -/

/-- `PTE_V` -/
def pteV : Word := 1
/-- `PTE_R` -/
def pteR : Word := 2
/-- `PTE_W` -/
def pteW : Word := 4
/-- `PTE_X` -/
def pteX : Word := 8
/-- `PTE_U` -/
def pteU : Word := 16

/-- `TRAMPOLINE` -/
def trampolineVa : Word := 2 ^ 38 - 4096
/-- `TRAPFRAME` -/
def trapframeVa : Word := trampolineVa - 4096

/-- `PTE_PA(pte)` -/
def ptePa (pte : Word) : ℕ := ((pte >>> 10) <<< 12).toNat

/-- `PA_PTE(pa)` -/
def paPte (pa : ℕ) : Word := (BitVec.ofNat 64 pa >>> 12) <<< 10

/-- `VPN_MASK(va, level)` -/
def vpn (va : Word) (level : ℕ) : Fin 512 := Fin.ofNat 512 (va >>> (12 + 9 * level)).toNat

/-- `PGGROUNDUP(sz)` -/
def pgroundup (sz : Word) : Word := (sz + 4096 - 1) &&& ~~~(4096 - 1)

/-! ## Physical memory -/

/-- `freelist`, as the address of its first page or 0, and the pages of memory. -/
structure Phys where
  freelist : ℕ := 0
  page : ℕ → Page := fun _ _ => 0

namespace Phys

/-- Replace the page at `pa`. -/
def fill (m : Phys) (pa : ℕ) (p : Page) : Phys := { m with page := Function.update m.page pa p }

/-- Word `i` of the page at `pa` is assigned `w`. -/
def store (m : Phys) (pa : ℕ) (i : Fin 512) (w : Word) : Phys :=
  m.fill pa (Function.update (m.page pa) i w)

/-- `free_page(pa)` -/
def freePage (m : Phys) (pa : ℕ) : Phys :=
  { m.store pa 0 (BitVec.ofNat 64 m.freelist) with freelist := pa }

/-- `alloc_page()`; 0 is the null pointer. -/
def allocPage (m : Phys) : ℕ × Phys :=
  if m.freelist = 0 then (0, m)
  else (m.freelist, { m with freelist := (m.page m.freelist 0).toNat })

/-- The loop of `pmm_init`, run for `count` pages from `pa` on. -/
def freeRange (m : Phys) : ℕ → ℕ → Phys
  | _, 0 => m
  | pa, count + 1 => freeRange (m.freePage pa) (pa + pgsize) count

/-- `pmm_init()`, where `kend` is the address of `end`. -/
def pmmInit (m : Phys) (kend : ℕ) : Phys :=
  let start := (kend + pgsize - 1) / pgsize * pgsize
  m.freeRange start ((phystop - start) / pgsize)

/-- `count` pages are allocated and kept. -/
def takePages (m : Phys) : ℕ → Phys
  | 0 => m
  | count + 1 => takePages m.allocPage.2 count

/-- `create_pagetable()` -/
def createPagetable (m : Phys) : Option (ℕ × Phys) :=
  let (pt, m) := m.allocPage
  if pt = 0 then none else some (pt, m.fill pt fun _ => 0)

/-- One turn of the loop of `walk_create`. -/
def walkStep (m : Phys) (pt : ℕ) (va : Word) (level : ℕ) : Option (ℕ × Phys) :=
  let idx := vpn va level
  if m.page pt idx &&& pteV ≠ 0 then some (ptePa (m.page pt idx), m)
  else
    let (newpt, m) := m.allocPage
    if newpt = 0 then none
    else some (newpt, (m.fill newpt fun _ => 0).store pt idx (paPte newpt ||| pteV))

/-- `walk_create(pt, va)`; the entry it returns is word `vpn va 0` of this page. -/
def walkCreate (m : Phys) (pt : ℕ) (va : Word) : Option (ℕ × Phys) := do
  let (pt, m) ← m.walkStep pt va 2
  m.walkStep pt va 1

/-- `walk_lookup(pt, va)`; the entry it returns is word `vpn va 0` of this page. -/
def walkLookup (m : Phys) (pt : ℕ) (va : Word) : Option ℕ :=
  if m.page pt (vpn va 2) &&& pteV = 0 then none
  else
    let pt := ptePa (m.page pt (vpn va 2))
    if m.page pt (vpn va 1) &&& pteV = 0 then none
    else some (ptePa (m.page pt (vpn va 1)))

/-- `map_page(pt, va, pa, perm)` -/
def mapPage (m : Phys) (pt : ℕ) (va : Word) (pa : ℕ) (perm : Word) : Option (ℤ × Phys) := do
  let (table, m) ← m.walkCreate pt va
  -- the entry is a null pointer when it is the first word at address 0
  if table = 0 ∧ vpn va 0 = 0 then return (-1, m)
  return (0, m.store table (vpn va 0) (paPte pa ||| perm ||| pteV))

/-- The page that the hardware lets a user access through the entry with these indices. -/
def userPage (m : Phys) (pt : ℕ) (i j k : Fin 512) : Option ℕ :=
  if m.page pt i &&& pteV = 0 then none
  else
    let pt := ptePa (m.page pt i)
    if m.page pt j &&& pteV = 0 then none
    else
      let pte := m.page (ptePa (m.page pt j)) k
      if pte &&& pteV ≠ 0 ∧ pte &&& pteU ≠ 0 then some (ptePa pte) else none

end Phys

end RiscvOs
