import Mathlib.Data.Nat.Bitwise
import Mathlib.Tactic.Common

/-!
# Page directory and page table entries

`threads/pte.h` and `threads/vaddr.h`. An entry is a word with the address of a page in its
high bits and flags in the low ones. Flags are set with `|` and cleared with `& ~`, so what an
entry says is what masks read from it, and each change is seen by its own mask only
(`or_of_disjoint`, `andNot_of_disjoint`).

Addresses are numbers below `2 ^ 32`. A kernel page can be given to a table or a process when
it is a `KernelPage`: its address in an entry loses nothing.
-/

namespace Pintos.Paging

abbrev Word : Type := BitVec 32

/-- `PGSIZE`. -/
abbrev pgSize : Nat := 4096

/-- `PHYS_BASE`. -/
abbrev physBase : Nat := 0xc0000000

/-- `PTE_ADDR`. -/
def pteAddr : Word := 0xfffff000#32

/-- `PTE_P`. -/
def pteP : Word := 0x1#32

/-- `PTE_W`. -/
def pteW : Word := 0x2#32

/-- `PTE_U`. -/
def pteU : Word := 0x4#32

/-- `PTE_A`. -/
def pteA : Word := 0x20#32

/-- `PTE_D`. -/
def pteD : Word := 0x40#32

/-- `pt_no`. -/
def ptNo (va : Nat) : Nat := (va &&& 0x003ff000) >>> 12

/-- `pd_no`. -/
def pdNo (va : Nat) : Nat := va >>> 22

/-- `pg_ofs`. -/
def pgOfs (va : Nat) : Nat := va &&& 0xfff

def vtop (vaddr : Nat) : Nat := vaddr - physBase

def ptov (paddr : Nat) : Nat := paddr + physBase

/-- `pde_create`. -/
def pdeCreate (pt : Nat) : Word := BitVec.ofNat 32 (vtop pt) ||| pteU ||| pteP ||| pteW

/-- `pde_get_pt`. -/
def pdeGetPt (pde : Word) : Nat := ptov (pde &&& pteAddr).toNat

/-- `pte_create_kernel`. -/
def pteCreateKernel (page : Nat) (writable : Bool) : Word :=
  BitVec.ofNat 32 (vtop page) ||| pteP ||| (if writable then pteW else 0#32)

/-- `pte_create_user`. -/
def pteCreateUser (page : Nat) (writable : Bool) : Word := pteCreateKernel page writable ||| pteU

/-- `pte_get_page`. -/
def pteGetPage (pte : Word) : Nat := ptov (pte &&& pteAddr).toNat

/-- Whether a flag is set. -/
def has (w flag : Word) : Bool := w &&& flag != 0#32

/-! ## Masks -/

theorem or_of_disjoint {flag mask : Word} (h : flag &&& mask = 0#32) (w : Word) :
    (w ||| flag) &&& mask = w &&& mask := by
  rw [BitVec.and_or_distrib_right, h, BitVec.or_zero]

theorem ptNo_eq (va : Nat) : ptNo va = va / 4096 % 1024 := by
  unfold ptNo
  rw [Nat.shiftRight_and_distrib, show 0x003ff000 >>> 12 = 2 ^ 10 - 1 from rfl,
    Nat.and_two_pow_sub_one_eq_mod, Nat.shiftRight_eq_div_pow]

theorem pdNo_eq (va : Nat) : pdNo va = va / 4096 / 1024 := by
  unfold pdNo
  rw [Nat.shiftRight_eq_div_pow, Nat.div_div_eq_div_mul]

theorem pgOfs_eq (va : Nat) : pgOfs va = va % 4096 := Nat.and_two_pow_sub_one_eq_mod va 12

/-! ## Addresses in entries -/

/-- A page that the kernel can hand out. -/
structure KernelPage (p : Nat) : Prop where
  aligned : p % pgSize = 0
  base : physBase ≤ p
  top : p < 2 ^ 32

theorem mask_aligned {v : Nat} (halign : v % 4096 = 0) (hv : v < 2 ^ 32) :
    BitVec.ofNat 32 v &&& pteAddr = BitVec.ofNat 32 v := by
  obtain ⟨k, rfl⟩ : ∃ k, v = 2 ^ 12 * k := ⟨v / 4096, by omega⟩
  refine BitVec.eq_of_toNat_eq ?_
  rw [BitVec.toNat_and, BitVec.toNat_ofNat, Nat.mod_eq_of_lt hv,
    show pteAddr.toNat = 2 ^ 12 * (2 ^ 20 - 1) from rfl]
  refine Nat.eq_of_testBit_eq fun i => ?_
  rw [Nat.testBit_and, Nat.testBit_two_pow_mul, Nat.testBit_two_pow_mul, Nat.testBit_two_pow_sub_one]
  by_cases hi : i - 12 < 20
  · simp only [hi, decide_true, Bool.and_true]
    cases decide (i ≥ 12) <;> simp
  · have hbit : k.testBit (i - 12) = false := by
      refine Nat.testBit_lt_two_pow (Nat.lt_of_lt_of_le (show k < 2 ^ 20 by omega) ?_)
      exact Nat.pow_le_pow_right (by decide) (by omega)
    simp [hbit]

/-- The low bits of an address in an entry are zero. -/
theorem mask_low {v : Nat} (halign : v % 4096 = 0) (hv : v < 2 ^ 32) {flag : Word}
    (hflag : pteAddr &&& flag = 0#32) : BitVec.ofNat 32 v &&& flag = 0#32 := by
  rw [← mask_aligned halign hv, BitVec.and_assoc, hflag, BitVec.and_zero]

theorem KernelPage.vtop_aligned {p : Nat} (h : KernelPage p) : vtop p % 4096 = 0 := by
  have haligned := h.aligned
  have hbase := h.base
  unfold vtop pgSize physBase at *
  omega

theorem KernelPage.vtop_lt {p : Nat} (h : KernelPage p) : vtop p < 2 ^ 32 :=
  Nat.lt_of_le_of_lt (Nat.sub_le _ _) h.top

theorem KernelPage.ptov_vtop {p : Nat} (h : KernelPage p) :
    ptov (BitVec.ofNat 32 (vtop p)).toNat = p := by
  rw [BitVec.toNat_ofNat, Nat.mod_eq_of_lt h.vtop_lt]
  exact Nat.sub_add_cancel h.base

/-- What a directory entry for a table says. -/
theorem pdeGetPt_pdeCreate {pt : Nat} (h : KernelPage pt) : pdeGetPt (pdeCreate pt) = pt := by
  unfold pdeGetPt pdeCreate
  rw [or_of_disjoint (by decide), or_of_disjoint (by decide), or_of_disjoint (by decide),
    mask_aligned h.vtop_aligned h.vtop_lt, h.ptov_vtop]

theorem pdeCreate_flag {pt : Nat} (h : KernelPage pt) {flag : Word}
    (hflag : pteAddr &&& flag = 0#32) : pdeCreate pt &&& flag = (pteU ||| pteP ||| pteW) &&& flag := by
  unfold pdeCreate
  rw [BitVec.or_assoc, BitVec.or_assoc, BitVec.and_or_distrib_right,
    mask_low h.vtop_aligned h.vtop_lt hflag, BitVec.zero_or, BitVec.or_assoc]

end Pintos.Paging
