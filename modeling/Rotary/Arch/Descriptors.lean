import Mathlib.Data.Nat.Bitwise
import Rotary.Arch.ContextSwitch
import Rotary.Lib.X86Tables

namespace Rotary

open Lib

/-!
# The descriptor tables (`gdt.c`, `cpu.c`, `interrupts.c`)

The kernel writes the fields of its descriptors in pieces, and the processor puts the pieces
together again.

* `gdtEncodeEntry_covers` — what a descriptor says to the processor, for any base, limit and flags;
* `cpuInit_segments` — after `cpu_init` code and data are flat in both rings, the task register
  names the TSS of the processor, and `cpu_get_local` finds the struct through `GS`;
* `idtInit_gates` — after `idt_init` every vector leads to its own stub, and a user can raise the
  vector of the syscalls and no other.

Left out: the log messages, and `idt_load`, whose table is the one that is written here.
-/

variable {m m' : ByteMem} {a b x : ℕ}

/-! ### One segment -/

/-- `gdt_encode_entry`. -/
def gdtEncodeEntry (m : ByteMem) (entry base limit : ℕ) (flags access : UInt8) : ByteMem :=
  let limit := if flags &&& 0x80 ≠ 0 then limit / 2 ^ 12 else limit
  putBytes m entry
    [ UInt8.ofNat limit, UInt8.ofNat (limit / 2 ^ 8),
      UInt8.ofNat base, UInt8.ofNat (base / 2 ^ 8),
      UInt8.ofNat (base / 2 ^ 16),
      access,
      UInt8.ofNat (limit / 2 ^ 16) &&& 0x0F ||| flags &&& 0xF0 ||| flags &&& 0xF0,
      UInt8.ofNat (base / 2 ^ 24) ]

/-- The upper half of a byte. -/
theorem byte_and_upper (f : UInt8) : f.toNat &&& 240 = 2 ^ 4 * (f.toNat / 16) := by
  have hall : ∀ n < 256, n &&& 240 = 2 ^ 4 * (n / 16) := by decide +kernel
  exact hall _ f.toNat_lt

theorem granularity_bit (f : UInt8) : f &&& 0x80 ≠ 0 ↔ (f.toNat / 16).testBit 3 = true := by
  have hall : ∀ n < 256, UInt8.ofNat n &&& 0x80 ≠ 0 ↔ (n / 16).testBit 3 = true := by
    decide +kernel
  have h := hall _ f.toNat_lt
  rwa [UInt8.ofNat_toNat] at h

/-- The byte with the rest of the limit and the flags. -/
theorem granularity_toNat (n : ℕ) (flags : UInt8) :
    (UInt8.ofNat n &&& 0x0F ||| flags &&& 0xF0 ||| flags &&& 0xF0).toNat =
      n % 16 + 16 * (flags.toNat / 16) := by
  have hlow : (UInt8.ofNat n).toNat &&& 15 = n % 16 := by
    rw [UInt8.toNat_ofNat', show 15 = 2 ^ 4 - 1 from rfl, Nat.and_two_pow_sub_one_eq_mod]
    omega
  have hlt : n % 16 < 2 ^ 4 := Nat.mod_lt _ (by decide)
  calc (UInt8.ofNat n &&& 0x0F ||| flags &&& 0xF0 ||| flags &&& 0xF0).toNat
      = n % 16 ||| 2 ^ 4 * (flags.toNat / 16) ||| 2 ^ 4 * (flags.toNat / 16) := by
        rw [UInt8.toNat_or, UInt8.toNat_or, UInt8.toNat_and, UInt8.toNat_and]
        simp only [UInt8.reduceToNat, hlow, byte_and_upper]
    _ = 2 ^ 4 * (flags.toNat / 16) ||| n % 16 := by
        rw [Nat.or_assoc, Nat.or_self, Nat.or_comm]
    _ = n % 16 + 16 * (flags.toNat / 16) := by
        rw [← Nat.two_pow_add_eq_or_of_lt hlt, Nat.add_comm]

/-- The processor reads what was encoded. -/
theorem readDescriptor_gdtEncodeEntry (m : ByteMem) (entry base limit : ℕ) (flags access : UInt8) :
    readDescriptor (gdtEncodeEntry m entry base limit flags access) entry =
      { base := base % 2 ^ 32
        limit := (if flags &&& 0x80 ≠ 0 then limit / 2 ^ 12 else limit) % 2 ^ 20
        access := access.toNat
        flags := flags.toNat / 16 } := by
  have hflags := flags.toNat_lt
  unfold gdtEncodeEntry
  generalize (if flags &&& 0x80 ≠ 0 then limit / 2 ^ 12 else limit) = l
  simp only [readDescriptor_putBytes, granularity_toNat, UInt8.toNat_ofNat', Descriptor.mk.injEq]
  refine ⟨by omega, by omega, trivial, by omega⟩

theorem gdtEncodeEntry_of_not_mem {entry base limit : ℕ} {flags access : UInt8}
    (h : x < entry ∨ entry + 8 ≤ x) : gdtEncodeEntry m entry base limit flags access x = m x :=
  putBytes_of_not_mem h

/-- **Encoding a segment.**  The processor reads the base, the access byte and the flags that were
    given.  It takes the segment to end at `limit` if and only if `limit` ends a page, where the
    granularity is pages, and is below 1 MiB, where it is bytes. -/
theorem gdtEncodeEntry_covers {base limit : ℕ} (m : ByteMem) (entry : ℕ) (flags access : UInt8)
    (hbase : base < 2 ^ 32) (hlimit : limit < 2 ^ 32) :
    let d := readDescriptor (gdtEncodeEntry m entry base limit flags access) entry
    d.base = base ∧ d.access = access.toNat ∧ d.flags = flags.toNat / 16 ∧
      ((∀ offset size, d.linear offset size =
          if offset + size ≤ limit + 1 then some ((base + offset) % 2 ^ 32) else none) ↔
        if flags &&& 0x80 ≠ 0 then limit % 2 ^ 12 = 2 ^ 12 - 1 else limit < 2 ^ 20) := by
  intro d
  have hd : d = _ := readDescriptor_gdtEncodeEntry m entry base limit flags access
  have hbase' : d.base = base := by rw [hd]; exact Nat.mod_eq_of_lt hbase
  have hlast : d.lastByte = limit ↔
      if flags &&& 0x80 ≠ 0 then limit % 2 ^ 12 = 2 ^ 12 - 1 else limit < 2 ^ 20 := by
    rw [Descriptor.lastByte, hd]
    simp only [← granularity_bit]
    split
    · omega
    · omega
  refine ⟨hbase', by rw [hd], by rw [hd], Iff.trans ⟨fun h => ?_, fun h offset size => ?_⟩ hlast⟩
  · -- the byte behind the shorter of the two segments tells them apart
    have hlimit := h (limit + 1) 0
    have hend := h (d.lastByte + 1) 0
    simp only [Descriptor.linear, Nat.add_zero, Nat.le_refl, if_true] at hlimit hend
    split at hlimit
    · split at hend
      · omega
      · simp at hend
    · simp at hlimit
  · rw [Descriptor.linear, h, hbase']

/-- The user code segment. -/
theorem gdtEncodeEntry_covers_userCode :
    let d := readDescriptor (gdtEncodeEntry (fun _ => 0) 0x118 0 0xFFFFFFFF 0xCF 0xFA) 0x118
    d.base = 0 ∧ d.access = 0xFA ∧ d.flags = 12 ∧
      ((∀ offset size, d.linear offset size =
          if offset + size ≤ 0xFFFFFFFF + 1 then some ((0 + offset) % 2 ^ 32) else none) ↔
        if (0xCF : UInt8) &&& 0x80 ≠ 0 then 0xFFFFFFFF % 2 ^ 12 = 2 ^ 12 - 1
        else 0xFFFFFFFF < 2 ^ 20) :=
  gdtEncodeEntry_covers _ _ _ _ (by decide) (by decide)

/-! ### The segments of a processor -/

/-- Offsets in `struct cpu_info`, whose `struct tss` is packed, and the sizes. -/
def cpuOffTss : ℕ := 9
def cpuOffGdtDesc : ℕ := 120
def cpuOffGdtEntries : ℕ := 128
def cpuOffSelf : ℕ := 184
def sizeofCpuInfo : ℕ := 192
def sizeofTss : ℕ := 104

/-- Offsets in `struct tss`. -/
def tssOffEsp0 : ℕ := 4
def tssOffSs0 : ℕ := 8

def gdtEntryCount : ℕ := 7
def gdtEntryKernelCode : ℕ := 1
def gdtEntryKernelData : ℕ := 2
def gdtEntryUserCode : ℕ := 3
def gdtEntryUserData : ℕ := 4
def gdtEntryTss : ℕ := 5
def gdtEntryCpuInfo : ℕ := 6

/-- The bits of the access byte. -/
def gdtAccessTypeSegment : UInt8 := 0x10
def gdtAccessPresent : UInt8 := 0x80
def gdtAccessPrivKernel : UInt8 := 0x00
def gdtAccessPrivUser : UInt8 := 0x60
def gdtAccessExecutable : UInt8 := 0x08
def gdtAccessData : UInt8 := 0x00
def gdtAccessDirectionUp : UInt8 := 0x00
def gdtAccessNonconforming : UInt8 := 0x00
def gdtAccessReadable : UInt8 := 0x02
def gdtAccessWritable : UInt8 := 0x02

/-- The registers for segments: the GDT and the selectors. -/
structure SegmentRegs where
  gdtBase : ℕ
  gdtLimit : ℕ
  seg : SegReg → ℕ
  tr : ℕ

/-- A store of 16 bits. -/
def store16 (m : ByteMem) (a v : ℕ) : ByteMem :=
  putBytes m a [UInt8.ofNat v, UInt8.ofNat (v / 2 ^ 8)]

/-- The place of a descriptor. -/
def gdtEntryAddr (cpu i : ℕ) : ℕ := cpu + cpuOffGdtEntries + 8 * i

/-- The memory that `cpu_init_gdt` leaves. -/
def cpuInitGdtMem (cpu : ℕ) (m : ByteMem) : ByteMem :=
  let m := store m (cpu + cpuOffGdtDesc + 2) (gdtEntryAddr cpu 0)
  let m := store16 m (cpu + cpuOffGdtDesc) (8 * gdtEntryCount - 1)
  let m := gdtEncodeEntry m (gdtEntryAddr cpu gdtEntryKernelCode) 0x00000000 0xFFFFFFFF 0xCF
    (gdtAccessTypeSegment ||| gdtAccessPresent ||| gdtAccessPrivKernel ||| gdtAccessExecutable |||
      gdtAccessNonconforming ||| gdtAccessReadable)
  let m := gdtEncodeEntry m (gdtEntryAddr cpu gdtEntryKernelData) 0x00000000 0xFFFFFFFF 0xCF
    (gdtAccessTypeSegment ||| gdtAccessPresent ||| gdtAccessPrivKernel ||| gdtAccessData |||
      gdtAccessDirectionUp ||| gdtAccessWritable)
  let m := gdtEncodeEntry m (gdtEntryAddr cpu gdtEntryUserCode) 0x00000000 0xFFFFFFFF 0xCF
    (gdtAccessTypeSegment ||| gdtAccessPresent ||| gdtAccessPrivUser ||| gdtAccessExecutable |||
      gdtAccessNonconforming ||| gdtAccessReadable)
  let m := gdtEncodeEntry m (gdtEntryAddr cpu gdtEntryUserData) 0x00000000 0xFFFFFFFF 0xCF
    (gdtAccessTypeSegment ||| gdtAccessPresent ||| gdtAccessPrivUser ||| gdtAccessData |||
      gdtAccessDirectionUp ||| gdtAccessWritable)
  let m := store16 m (cpu + cpuOffTss + tssOffSs0) gdtKernelDataOffset
  let m := gdtEncodeEntry m (gdtEntryAddr cpu gdtEntryTss) (cpu + cpuOffTss) sizeofTss 0x40 0x89
  gdtEncodeEntry m (gdtEntryAddr cpu gdtEntryCpuInfo) (cpu + cpuOffSelf) (sizeofCpuInfo - 1) 0x4F
    (gdtAccessTypeSegment ||| gdtAccessPresent ||| gdtAccessPrivKernel ||| gdtAccessData |||
      gdtAccessDirectionUp ||| gdtAccessWritable)

/-- `cpu_load_gdtr`. -/
def cpuLoadGdtr (m : ByteMem) (gdtr : ℕ) (c : SegmentRegs) : SegmentRegs :=
  { c with gdtBase := load m (gdtr + 2), gdtLimit := load m gdtr % 2 ^ 16 }

/-- `cpu_set_gs`. -/
def cpuSetGs (value : ℕ) (c : SegmentRegs) : SegmentRegs :=
  { c with seg := Function.update c.seg .gs (value % 2 ^ 16) }

/-- `gdt_flush`. -/
def gdtFlush (c : SegmentRegs) : SegmentRegs :=
  { c with seg := fun r => if r = .cs then 0x08 else if r = .gs then c.seg .gs else 0x10 }

/-- `tss_flush`. -/
def tssFlush (c : SegmentRegs) : SegmentRegs := { c with tr := 0x28 }

/-- `cpu_init_gdt`. -/
def cpuInitGdt (cpu : ℕ) (m : ByteMem) (c : SegmentRegs) : ByteMem × SegmentRegs :=
  let m := cpuInitGdtMem cpu m
  (m, tssFlush
    (gdtFlush (cpuSetGs (gdtEntryCpuInfo <<< 3) (cpuLoadGdtr m (cpu + cpuOffGdtDesc) c))))

/-- `cpu_init`, with `cpu0` at `cpu`. -/
def cpuInit (cpu : ℕ) (m : ByteMem) (c : SegmentRegs) : ByteMem × SegmentRegs :=
  let m := memZero m cpu sizeofCpuInfo
  let m := store16 m cpu 0
  let m := store m (cpu + cpuOffSelf) cpu
  cpuInitGdt cpu m c

/-- The descriptor of a selector.  There is none for the null selector, for one of a local table,
    behind the limit, or where the segment is not present. -/
def SegmentRegs.descriptor (c : SegmentRegs) (m : ByteMem) (sel : ℕ) : Option Descriptor :=
  let d := readDescriptor m (c.gdtBase + sel / 8 * 8)
  if sel / 8 ≠ 0 ∧ sel / 4 % 2 = 0 ∧ sel / 8 * 8 + 7 ≤ c.gdtLimit ∧ d.access.testBit 7 = true then
    some d
  else none

/-- `cpu_get_local`. -/
def cpuGetLocal (m : ByteMem) (c : SegmentRegs) : Option ℕ :=
  (c.descriptor m (c.seg .gs)).bind fun d => (d.linear 0 4).map (load m)

/-! ### The memory that `cpu_init` leaves -/

variable {cpu i j v base limit : ℕ} {flags access : UInt8}

theorem store16_of_not_mem (h : x < a ∨ a + 2 ≤ x) : store16 m a v x = m x := putBytes_of_not_mem h

/-- A descriptor is not changed by another one. -/
theorem readDescriptor_gdtEncodeEntry_of_ne (h : j ≠ i) :
    readDescriptor (gdtEncodeEntry m (gdtEntryAddr cpu i) base limit flags access)
      (gdtEntryAddr cpu j) = readDescriptor m (gdtEntryAddr cpu j) := by
  apply readDescriptor_congr
  intro x h₁ h₂
  unfold gdtEntryAddr at *
  exact gdtEncodeEntry_of_not_mem (by omega)

/-- The fields before the GDT are not changed by the descriptors. -/
theorem load_gdtEncodeEntry (h : a + 4 ≤ cpu + cpuOffGdtEntries) :
    load (gdtEncodeEntry m (gdtEntryAddr cpu i) base limit flags access) a = load m a := by
  apply load_congr
  intro x h₁ h₂
  unfold gdtEntryAddr
  exact gdtEncodeEntry_of_not_mem (by omega)

theorem readDescriptor_store16 (h : a + 2 ≤ cpu + cpuOffGdtEntries) :
    readDescriptor (store16 m a v) (gdtEntryAddr cpu j) =
      readDescriptor m (gdtEntryAddr cpu j) := by
  apply readDescriptor_congr
  intro x h₁ h₂
  unfold gdtEntryAddr at *
  exact store16_of_not_mem (by omega)

theorem load_store16 (h : b + 4 ≤ a ∨ a + 2 ≤ b) : load (store16 m a v) b = load m b := by
  apply load_congr
  intro x h₁ h₂
  exact store16_of_not_mem (by omega)

/-- The sixteen bits stored. -/
theorem load_store16_self (m : ByteMem) (a v : ℕ) :
    load (store16 m a v) a % 2 ^ 16 = v % 2 ^ 16 := by
  have hbyte : ∀ i < 2, store16 m a v (a + i) =
      [UInt8.ofNat v, UInt8.ofNat (v / 2 ^ 8)].getD i 0 := fun i hi => putBytes_at hi
  have h₀ := hbyte 0 (by decide)
  have h₁ := hbyte 1 (by decide)
  rw [Nat.add_zero, List.getD_cons_zero] at h₀
  rw [List.getD_cons_succ, List.getD_cons_zero] at h₁
  unfold load
  rw [h₀, h₁, UInt8.toNat_ofNat', UInt8.toNat_ofNat']
  omega

/-- The descriptors of the GDT: base, limit, flags and access byte. -/
structure GdtHolds (m : ByteMem) (cpu : ℕ) : Prop where
  kernelCode : readDescriptor m (gdtEntryAddr cpu 1) = ⟨0, 0xFFFFF, 0x9A, 12⟩
  kernelData : readDescriptor m (gdtEntryAddr cpu 2) = ⟨0, 0xFFFFF, 0x92, 12⟩
  userCode : readDescriptor m (gdtEntryAddr cpu 3) = ⟨0, 0xFFFFF, 0xFA, 12⟩
  userData : readDescriptor m (gdtEntryAddr cpu 4) = ⟨0, 0xFFFFF, 0xF2, 12⟩
  tss : readDescriptor m (gdtEntryAddr cpu 5) = ⟨(cpu + cpuOffTss) % 2 ^ 32, 104, 0x89, 4⟩
  cpuInfo : readDescriptor m (gdtEntryAddr cpu 6) = ⟨(cpu + cpuOffSelf) % 2 ^ 32, 191, 0x92, 4⟩

theorem cpuInitGdtMem_holds (cpu : ℕ) (m : ByteMem) : GdtHolds (cpuInitGdtMem cpu m) cpu := by
  have hoff : cpu + cpuOffTss + tssOffSs0 + 2 ≤ cpu + cpuOffGdtEntries := by
    simp only [cpuOffTss, tssOffSs0, cpuOffGdtEntries]
    omega
  unfold cpuInitGdtMem
  simp only [gdtEntryKernelCode, gdtEntryKernelData, gdtEntryUserCode, gdtEntryUserData,
    gdtEntryTss, gdtEntryCpuInfo]
  constructor
  case cpuInfo => rw [readDescriptor_gdtEncodeEntry]; rfl
  case tss =>
    rw [readDescriptor_gdtEncodeEntry_of_ne (by decide), readDescriptor_gdtEncodeEntry]
    rfl
  case userData =>
    rw [readDescriptor_gdtEncodeEntry_of_ne (by decide),
      readDescriptor_gdtEncodeEntry_of_ne (by decide), readDescriptor_store16 hoff,
      readDescriptor_gdtEncodeEntry]
    rfl
  case userCode =>
    rw [readDescriptor_gdtEncodeEntry_of_ne (by decide),
      readDescriptor_gdtEncodeEntry_of_ne (by decide), readDescriptor_store16 hoff,
      readDescriptor_gdtEncodeEntry_of_ne (by decide), readDescriptor_gdtEncodeEntry]
    rfl
  case kernelData =>
    rw [readDescriptor_gdtEncodeEntry_of_ne (by decide),
      readDescriptor_gdtEncodeEntry_of_ne (by decide), readDescriptor_store16 hoff,
      readDescriptor_gdtEncodeEntry_of_ne (by decide),
      readDescriptor_gdtEncodeEntry_of_ne (by decide), readDescriptor_gdtEncodeEntry]
    rfl
  case kernelCode =>
    rw [readDescriptor_gdtEncodeEntry_of_ne (by decide),
      readDescriptor_gdtEncodeEntry_of_ne (by decide), readDescriptor_store16 hoff,
      readDescriptor_gdtEncodeEntry_of_ne (by decide),
      readDescriptor_gdtEncodeEntry_of_ne (by decide),
      readDescriptor_gdtEncodeEntry_of_ne (by decide), readDescriptor_gdtEncodeEntry]
    rfl

/-- Only the descriptor and the table are written, and `ss0`. -/
theorem cpuInitGdtMem_of_not_mem (h : x < cpu + cpuOffTss ∨ cpu + cpuOffSelf ≤ x) :
    cpuInitGdtMem cpu m x = m x := by
  simp only [cpuOffTss, cpuOffSelf] at h
  unfold cpuInitGdtMem
  simp only [gdtEntryKernelCode, gdtEntryKernelData, gdtEntryUserCode, gdtEntryUserData,
    gdtEntryTss, gdtEntryCpuInfo, gdtEntryAddr, cpuOffGdtDesc, cpuOffGdtEntries, cpuOffTss,
    tssOffSs0]
  rw [gdtEncodeEntry_of_not_mem (by omega), gdtEncodeEntry_of_not_mem (by omega),
    store16_of_not_mem (by omega), gdtEncodeEntry_of_not_mem (by omega),
    gdtEncodeEntry_of_not_mem (by omega), gdtEncodeEntry_of_not_mem (by omega),
    gdtEncodeEntry_of_not_mem (by omega), store16_of_not_mem (by omega),
    store_of_not_mem (by omega)]

/-- The descriptor of the GDT, and the stack segment of the kernel in the TSS. -/
theorem cpuInitGdtMem_fields (cpu : ℕ) (m : ByteMem) :
    load (cpuInitGdtMem cpu m) (cpu + cpuOffGdtDesc + 2) = gdtEntryAddr cpu 0 % 2 ^ 32 ∧
      load (cpuInitGdtMem cpu m) (cpu + cpuOffGdtDesc) % 2 ^ 16 = 55 ∧
      load (cpuInitGdtMem cpu m) (cpu + cpuOffTss + tssOffSs0) % 2 ^ 16 = gdtKernelDataOffset := by
  have hdesc : cpu + cpuOffGdtDesc + 2 + 4 ≤ cpu + cpuOffGdtEntries := by
    simp only [cpuOffGdtDesc, cpuOffGdtEntries]
    omega
  have htss : cpu + cpuOffTss + tssOffSs0 + 4 ≤ cpu + cpuOffGdtDesc := by
    simp only [cpuOffTss, tssOffSs0, cpuOffGdtDesc]
    omega
  unfold cpuInitGdtMem
  refine ⟨?_, ?_, ?_⟩
  · rw [load_gdtEncodeEntry hdesc, load_gdtEncodeEntry hdesc, load_store16 (by omega),
      load_gdtEncodeEntry hdesc, load_gdtEncodeEntry hdesc, load_gdtEncodeEntry hdesc,
      load_gdtEncodeEntry hdesc, load_store16 (by omega), load_store_self]
  · rw [load_gdtEncodeEntry (by omega), load_gdtEncodeEntry (by omega), load_store16 (by omega),
      load_gdtEncodeEntry (by omega), load_gdtEncodeEntry (by omega),
      load_gdtEncodeEntry (by omega), load_gdtEncodeEntry (by omega), load_store16_self]
    rfl
  · rw [load_gdtEncodeEntry (by omega), load_gdtEncodeEntry (by omega), load_store16_self]
    rfl

/-! ### The segments after `cpu_init` -/

/-- A descriptor of pages up to the last one is flat. -/
theorem linear_flat {access : ℕ} {offset size : ℕ} (h : offset + size ≤ 2 ^ 32) :
    (⟨0, 0xFFFFF, access, 12⟩ : Descriptor).linear offset size = some (offset % 2 ^ 32) := by
  have hlast : (⟨0, 0xFFFFF, access, 12⟩ : Descriptor).lastByte = 0xFFFFF * 2 ^ 12 + 4095 :=
    if_pos (show Nat.testBit 12 3 = true by decide)
  rw [Descriptor.linear, hlast, if_pos (by omega), Nat.zero_add]

/-- The GDT is found through its descriptor. -/
theorem cpuInit_descriptor {c : SegmentRegs} {sel : ℕ} {d : Descriptor}
    (hcpu : cpu + sizeofCpuInfo ≤ 2 ^ 32) (hsel : sel / 8 ≠ 0 ∧ sel / 4 % 2 = 0 ∧ sel / 8 < 7)
    (hd : readDescriptor (cpuInit cpu m c).1 (gdtEntryAddr cpu (sel / 8)) = d)
    (hpresent : d.access.testBit 7 = true) :
    (cpuInit cpu m c).2.descriptor (cpuInit cpu m c).1 sel = some d := by
  have hfields := cpuInitGdtMem_fields cpu (store (store16 (memZero m cpu sizeofCpuInfo) cpu 0)
    (cpu + cpuOffSelf) cpu)
  have hlimit : (cpuInit cpu m c).2.gdtLimit = 55 := hfields.2.1
  have hbase : (cpuInit cpu m c).2.gdtBase = gdtEntryAddr cpu 0 % 2 ^ 32 := hfields.1
  have haddr : gdtEntryAddr cpu 0 % 2 ^ 32 + sel / 8 * 8 = gdtEntryAddr cpu (sel / 8) := by
    simp only [sizeofCpuInfo] at hcpu
    simp only [gdtEntryAddr, cpuOffGdtEntries]
    omega
  unfold SegmentRegs.descriptor
  rw [hlimit, hbase, haddr, hd]
  exact if_pos ⟨hsel.1, hsel.2.1, by omega, hpresent⟩

/-- The segment of `GS` begins at the pointer of the struct to itself. -/
theorem cpuInit_getLocal {c : SegmentRegs} (hcpu : cpu + sizeofCpuInfo ≤ 2 ^ 32) :
    cpuGetLocal (cpuInit cpu m c).1 (cpuInit cpu m c).2 = some cpu := by
  have hlt : cpu + 192 ≤ 2 ^ 32 := hcpu
  have hgdt : GdtHolds (cpuInit cpu m c).1 cpu := cpuInitGdtMem_holds cpu _
  have hself : load (cpuInit cpu m c).1 (cpu + cpuOffSelf) = cpu := by
    have hkept : load (cpuInit cpu m c).1 (cpu + cpuOffSelf) =
        load (store (store16 (memZero m cpu sizeofCpuInfo) cpu 0) (cpu + cpuOffSelf) cpu)
          (cpu + cpuOffSelf) :=
      load_congr fun x h₁ _ => cpuInitGdtMem_of_not_mem (Or.inr h₁)
    rw [hkept]
    exact load_store _ _ (by omega)
  have hbase : ((cpu + cpuOffSelf) % 2 ^ 32 + 0) % 2 ^ 32 = cpu + cpuOffSelf := by
    simp only [cpuOffSelf]
    omega
  have hlinear : (⟨(cpu + cpuOffSelf) % 2 ^ 32, 191, 0x92, 4⟩ : Descriptor).linear 0 4 =
      some (cpu + cpuOffSelf) := by
    have hlast : (⟨(cpu + cpuOffSelf) % 2 ^ 32, 191, 0x92, 4⟩ : Descriptor).lastByte = 191 :=
      if_neg (show ¬ Nat.testBit 4 3 = true by decide)
    rw [Descriptor.linear, hlast, hbase, if_pos (by decide)]
  have hpresent : Nat.testBit 0x92 7 = true := by decide
  have hgs : (cpuInit cpu m c).2.descriptor (cpuInit cpu m c).1 0x30 = some _ :=
    cpuInit_descriptor hcpu (by decide) hgdt.cpuInfo hpresent
  show ((cpuInit cpu m c).2.descriptor (cpuInit cpu m c).1 0x30).bind _ = _
  rw [hgs, Option.bind_some, hlinear, Option.map_some, hself]

/-- `cpu_init` writes to the struct only. -/
theorem cpuInit_of_not_mem {c : SegmentRegs} (hx : x < cpu ∨ cpu + sizeofCpuInfo ≤ x) :
    (cpuInit cpu m c).1 x = m x := by
  simp only [sizeofCpuInfo] at hx
  have hzero : memZero m cpu sizeofCpuInfo x = m x :=
    memZero_of_not_mem (by simp only [sizeofCpuInfo]; omega)
  have hgdtMem : (cpuInit cpu m c).1 x = _ := cpuInitGdtMem_of_not_mem (by
    simp only [cpuOffTss, cpuOffSelf]
    omega)
  rw [hgdtMem, store_of_not_mem (by simp only [cpuOffSelf]; omega),
    store16_of_not_mem (by omega), hzero]

/-- **The segments of a processor.**  After `cpu_init` the code and data segments of both rings
    are flat, the selectors of the kernel are loaded, the task register names the TSS in the
    struct, whose stack segment is that of the kernel, and `cpu_get_local` returns the struct. -/
theorem cpuInit_segments (cpu : ℕ) (m : ByteMem) (c : SegmentRegs)
    (hcpu : cpu + sizeofCpuInfo ≤ 2 ^ 32) :
    let m' := (cpuInit cpu m c).1
    let c' := (cpuInit cpu m c).2
    (∀ s ∈ [(gdtKernelCodeOffset, rplKernelmode, true), (gdtKernelDataOffset, rplKernelmode, false),
        (gdtUserCodeOffset, rplUsermode, true), (gdtUserDataOffset, rplUsermode, false)],
      ∃ d, c'.descriptor m' (s.1 ||| s.2.1) = some d ∧ d.ring = s.2.1 ∧ d.isCode = s.2.2 ∧
        ∀ offset size, offset + size ≤ 2 ^ 32 → d.linear offset size = some (offset % 2 ^ 32)) ∧
      (c'.seg .cs = gdtKernelCodeOffset ∧
        ∀ r ∈ [SegReg.ds, .es, .fs, .ss], c'.seg r = gdtKernelDataOffset) ∧
      (∃ d, c'.descriptor m' c'.tr = some d ∧ d.base = cpu + cpuOffTss ∧
        load m' (d.base + tssOffSs0) % 2 ^ 16 = gdtKernelDataOffset) ∧
      cpuGetLocal m' c' = some cpu ∧
      ∀ x, (x < cpu ∨ cpu + sizeofCpuInfo ≤ x) → m' x = m x := by
  intro m' c'
  have hlt : cpu + 192 ≤ 2 ^ 32 := hcpu
  have hgdt : GdtHolds m' cpu := cpuInitGdtMem_holds cpu _
  have hfields := cpuInitGdtMem_fields cpu (store (store16 (memZero m cpu sizeofCpuInfo) cpu 0)
    (cpu + cpuOffSelf) cpu)
  have hdesc : ∀ sel d, sel / 8 ≠ 0 ∧ sel / 4 % 2 = 0 ∧ sel / 8 < 7 →
      readDescriptor m' (gdtEntryAddr cpu (sel / 8)) = d → d.access.testBit 7 = true →
      c'.descriptor m' sel = some d := fun sel d h₁ h₂ h₃ => cpuInit_descriptor hcpu h₁ h₂ h₃
  refine ⟨?flat, ⟨rfl, ?data⟩, ?tss, ?gs, ?frame⟩
  case flat =>
    simp only [List.forall_mem_cons, List.not_mem_nil, false_imp_iff, implies_true, and_true]
    exact ⟨⟨_, hdesc 0x08 _ (by decide) hgdt.kernelCode rfl, rfl, rfl, fun _ _ h => linear_flat h⟩,
      ⟨_, hdesc 0x10 _ (by decide) hgdt.kernelData rfl, rfl, rfl, fun _ _ h => linear_flat h⟩,
      ⟨_, hdesc 0x1B _ (by decide) hgdt.userCode rfl, rfl, rfl, fun _ _ h => linear_flat h⟩,
      ⟨_, hdesc 0x23 _ (by decide) hgdt.userData rfl, rfl, rfl, fun _ _ h => linear_flat h⟩⟩
  case data =>
    simp only [List.forall_mem_cons, List.not_mem_nil, false_imp_iff, implies_true, and_true]
    exact ⟨rfl, rfl, rfl, rfl⟩
  case tss =>
    have hbase : (cpu + cpuOffTss) % 2 ^ 32 = cpu + cpuOffTss := by
      simp only [cpuOffTss]
      omega
    have hpresent : Nat.testBit 0x89 7 = true := by decide
    refine ⟨_, hdesc 0x28 _ (by decide) hgdt.tss hpresent, hbase, ?_⟩
    show load m' ((cpu + cpuOffTss) % 2 ^ 32 + tssOffSs0) % 2 ^ 16 = _
    rw [hbase]
    exact hfields.2.2
  case gs => exact cpuInit_getLocal hcpu
  case frame => exact fun x hx => cpuInit_of_not_mem hx

/-- `cpu0` somewhere in the kernel. -/
theorem cpuInit_segments_cpu0 :
    cpuGetLocal (cpuInit 0xC0120040 (fun _ => 0xAA) ⟨0, 0, fun _ => 0, 0⟩).1
      (cpuInit 0xC0120040 (fun _ => 0xAA) ⟨0, 0, fun _ => 0, 0⟩).2 = some 0xC0120040 :=
  (cpuInit_segments 0xC0120040 (fun _ => 0xAA) ⟨0, 0, fun _ => 0, 0⟩
    (by decide)).2.2.2.1

/-! ### The gates -/

def idtType32Int : ℕ := 0x0E
def idtDplKernel : ℕ := 0x00
def idtDplUser : ℕ := 0x03

/-- The vector of the syscalls, `INT_SYSCALL`. -/
def intSyscall : ℕ := 64

/-- `LOW_16` and `HIGH_16`. -/
def low16 (address : ℕ) : ℕ := address % 2 ^ 16
def high16 (address : ℕ) : ℕ := address / 2 ^ 16 % 2 ^ 16

/-- `set_idt_gate`, with the table at `idt`. -/
def setIdtGate (idt : ℕ) (m : ByteMem) (intNum handleAddr dpl : ℕ) : ByteMem :=
  putBytes m (idt + 8 * intNum)
    [ UInt8.ofNat (low16 handleAddr), UInt8.ofNat (low16 handleAddr / 2 ^ 8),
      UInt8.ofNat gdtKernelCodeOffset, UInt8.ofNat (gdtKernelCodeOffset / 2 ^ 8),
      0x00,
      -- `gate_type : 4`, `s : 1`, `dpl : 2` and `present : 1`
      UInt8.ofNat (idtType32Int % 2 ^ 4 + 2 ^ 4 * (0x00 % 2) + 2 ^ 5 * (dpl % 2 ^ 2) +
        2 ^ 7 * (0x01 % 2)),
      UInt8.ofNat (high16 handleAddr), UInt8.ofNat (high16 handleAddr / 2 ^ 8) ]

/-- The calls of `idt_init`: the vector and the privilege level. -/
def idtCalls : List (ℕ × ℕ) := (List.range 48).map (·, idtDplKernel) ++ [(intSyscall, idtDplUser)]

/-- `idt_init`; `isr` has the addresses of the stubs. -/
def idtInit (isr : ℕ → ℕ) (idt : ℕ) (m : ByteMem) : ByteMem :=
  idtCalls.foldl (fun m g => setIdtGate idt m g.1 (isr g.1) g.2) m

/-- The gate that a call of `set_idt_gate` is for. -/
def gateFor (handleAddr dpl : ℕ) : Gate where
  offset := handleAddr % 2 ^ 32
  selector := gdtKernelCodeOffset
  gateType := idtType32Int
  dpl := dpl % 2 ^ 2
  present := true

variable {isr : ℕ → ℕ} {idt n : ℕ} {calls : List (ℕ × ℕ)}

/-- The byte with the bit fields. -/
theorem gateByte (dpl : ℕ) :
    let b := UInt8.ofNat (idtType32Int % 2 ^ 4 + 2 ^ 4 * (0x00 % 2) + 2 ^ 5 * (dpl % 2 ^ 2) +
      2 ^ 7 * (0x01 % 2))
    b.toNat % 16 = idtType32Int ∧ b.toNat / 32 % 4 = dpl % 2 ^ 2 ∧ b.toNat.testBit 7 = true := by
  intro b
  have hall : ∀ d < 4, (142 + 32 * d) % 16 = idtType32Int ∧ (142 + 32 * d) / 32 % 4 = d ∧
      Nat.testBit (142 + 32 * d) 7 = true := by decide
  have hlt : dpl % 2 ^ 2 < 4 := Nat.mod_lt _ (by decide)
  have hb : b.toNat = 142 + 32 * (dpl % 2 ^ 2) := by
    rw [UInt8.toNat_ofNat', idtType32Int]
    omega
  rw [hb]
  exact hall _ hlt

theorem readGate_setIdtGate (idt : ℕ) (m : ByteMem) (n handleAddr dpl : ℕ) :
    readGate (setIdtGate idt m n handleAddr dpl) (idt + 8 * n) = gateFor handleAddr dpl := by
  obtain ⟨htype, hdpl, hpresent⟩ := gateByte dpl
  rw [setIdtGate, readGate_putBytes, htype, hdpl, hpresent, gateFor, Gate.mk.injEq]
  simp only [UInt8.toNat_ofNat', low16, high16]
  exact ⟨by omega, rfl, trivial, trivial, trivial⟩

theorem setIdtGate_of_not_mem {handleAddr dpl : ℕ} (h : x < idt + 8 * n ∨ idt + 8 * n + 8 ≤ x) :
    setIdtGate idt m n handleAddr dpl x = m x := putBytes_of_not_mem h

/-- What is not in a gate that is set stays as it was. -/
theorem setIdtGates_of_not_mem
    (h : ∀ g ∈ calls, x < idt + 8 * g.1 ∨ idt + 8 * g.1 + 8 ≤ x) :
    calls.foldl (fun m g => setIdtGate idt m g.1 (isr g.1) g.2) m x = m x := by
  induction calls generalizing m with
  | nil => rfl
  | cons g calls ih =>
    rw [List.foldl_cons, ih fun g' hg' => h g' (List.mem_cons_of_mem g hg')]
    exact setIdtGate_of_not_mem (h g List.mem_cons_self)

/-- Gates of different vectors do not touch each other. -/
theorem readGate_setIdtGates (hnd : (calls.map Prod.fst).Nodup) {g : ℕ × ℕ} (hg : g ∈ calls) :
    readGate (calls.foldl (fun m g => setIdtGate idt m g.1 (isr g.1) g.2) m) (idt + 8 * g.1) =
      gateFor (isr g.1) g.2 := by
  induction calls generalizing m with
  | nil => simp at hg
  | cons c calls ih =>
    rw [List.map_cons, List.nodup_cons] at hnd
    rw [List.foldl_cons]
    rcases List.mem_cons.mp hg with rfl | hg
    · rw [← readGate_setIdtGate idt m]
      apply readGate_congr
      intro x h₁ h₂
      apply setIdtGates_of_not_mem
      intro g' hg'
      have hne : g'.1 ≠ g.1 := fun heq => hnd.1 (heq ▸ List.mem_map_of_mem hg')
      omega
    · exact ih hnd.2 hg

theorem idtCalls_nodup : (idtCalls.map Prod.fst).Nodup := by decide

theorem idtInit_of_not_mem (h : ∀ g ∈ idtCalls, x < idt + 8 * g.1 ∨ idt + 8 * g.1 + 8 ≤ x) :
    idtInit isr idt m x = m x := setIdtGates_of_not_mem h

theorem readGate_idtInit {dpl : ℕ} (h : (n, dpl) ∈ idtCalls) :
    readGate (idtInit isr idt m) (idt + 8 * n) = gateFor (isr n) dpl := by
  unfold idtInit
  exact readGate_setIdtGates (g := (n, dpl)) idtCalls_nodup h

theorem mem_idtCalls (hn : n < 48 ∨ n = intSyscall) :
    (n, if n = intSyscall then idtDplUser else idtDplKernel) ∈ idtCalls := by
  rcases hn with hn | rfl
  · rw [if_neg (by unfold intSyscall; omega)]
    exact List.mem_append_left _ (List.mem_map_of_mem (List.mem_range.mpr hn))
  · exact List.mem_append_right _ (List.mem_singleton.mpr rfl)

theorem idtCalls_vector : ∀ g ∈ idtCalls, g.1 < 48 ∨ g.1 = intSyscall := by decide

/-- A gate that is not set stays as it was before, all zero. -/
theorem readGate_idtInit_unset (hn : ¬ (n < 48 ∨ n = intSyscall))
    (hzero : ∀ x, idt + 8 * n ≤ x → x < idt + 8 * n + 8 → m x = 0) :
    readGate (idtInit isr idt m) (idt + 8 * n) = ⟨0, 0, 0, 0, false⟩ := by
  have hbytes : readGate (idtInit isr idt m) (idt + 8 * n) =
      readGate (fun _ => 0) (idt + 8 * n) := by
    apply readGate_congr
    intro x h₁ h₂
    have hkept : idtInit isr idt m x = m x := by
      apply idtInit_of_not_mem
      intro g hg
      have hg' := idtCalls_vector g hg
      omega
    rw [hkept, hzero x h₁ h₂]
  have hnone : Nat.testBit 0 7 = false := by decide
  rw [hbytes]
  simp only [readGate, UInt8.reduceToNat, hnone]
  rfl

/-- **The gates.**  After `idt_init` every vector up to 47 and that of the syscalls leads to its
    own stub, through an interrupt gate into the code segment of the kernel.  In a table that was
    zero, no other gate is present, and `int n` is allowed to a user for the syscalls and for
    nothing else.  No byte outside the table changes. -/
theorem idtInit_gates (isr : ℕ → ℕ) (idt : ℕ) (m : ByteMem)
    (hzero : ∀ x, idt ≤ x → x < idt + 8 * 256 → m x = 0) :
    (∀ n, n < 48 ∨ n = intSyscall →
        readGate (idtInit isr idt m) (idt + 8 * n) =
          gateFor (isr n) (if n = intSyscall then idtDplUser else idtDplKernel)) ∧
      (∀ n < 256, (readGate (idtInit isr idt m) (idt + 8 * n)).present = true ↔
        n < 48 ∨ n = intSyscall) ∧
      (∀ n < 256, (readGate (idtInit isr idt m) (idt + 8 * n)).Allows rplUsermode ↔
        n = intSyscall) ∧
      ∀ x, (x < idt ∨ idt + 8 * 256 ≤ x) → idtInit isr idt m x = m x := by
  have hset : ∀ n, n < 48 ∨ n = intSyscall →
      readGate (idtInit isr idt m) (idt + 8 * n) =
        gateFor (isr n) (if n = intSyscall then idtDplUser else idtDplKernel) :=
    fun n hn => readGate_idtInit (mem_idtCalls hn)
  have hunset : ∀ n < 256, ¬ (n < 48 ∨ n = intSyscall) →
      readGate (idtInit isr idt m) (idt + 8 * n) = ⟨0, 0, 0, 0, false⟩ := fun n hlt hn =>
    readGate_idtInit_unset hn fun x h₁ h₂ => hzero x (by omega) (by omega)
  refine ⟨hset, fun n hlt => ?_, fun n hlt => ?_, fun x hx => ?_⟩
  · by_cases hn : n < 48 ∨ n = intSyscall
    · rw [hset n hn]
      exact ⟨fun _ => hn, fun _ => rfl⟩
    · rw [hunset n hlt hn]
      exact ⟨fun h => absurd h (by decide), fun h => absurd h hn⟩
  · by_cases hn : n < 48 ∨ n = intSyscall
    · rw [hset n hn]
      by_cases hsys : n = intSyscall
      · rw [if_pos hsys]
        exact ⟨fun _ => hsys, fun _ => ⟨rfl, show 3 ≤ 3 % 2 ^ 2 by decide⟩⟩
      · rw [if_neg hsys]
        exact ⟨fun h => absurd h.2 (show ¬ 3 ≤ 0 % 2 ^ 2 by decide), fun h => absurd h hsys⟩
    · rw [hunset n hlt hn]
      exact ⟨fun h => absurd h.1 (by decide), fun h => absurd (Or.inr h) hn⟩
  · apply idtInit_of_not_mem
    intro g hg
    have hg' := idtCalls_vector g hg
    unfold intSyscall at hg'
    omega

/-- The stubs one after the other. -/
theorem idtInit_gates_bss :
    readGate (idtInit (fun n => 0xC0100000 + 16 * n) 0xC0130000 fun _ => 0) (0xC0130000 + 8 * 14) =
      gateFor 0xC01000E0 0 :=
  (idtInit_gates (fun n => 0xC0100000 + 16 * n) 0xC0130000 (fun _ => 0)
    fun _ _ _ => rfl).1 14 (by decide)

end Rotary
