import BadgerOS.Common.Word

/-!
# Enumeration of PCIe functions

Model of `pcie_ecam_detect` and `pcie_ecam_vaddr`
(`kernel/port/generic/src/driver/pcie.c` lines 21–123).

**Deviation.** The window that is mapped starts with bus `bus_start`, and `pcie_ecam_vaddr`
counts from there. The enumeration counts from bus 0. With another first bus it reads beyond
the window, and a driver gets another function than the one detected.
-/

namespace BadgerOS.Pcie

/-- The fields of `pcie_controller_t` that are used here. -/
structure PcieController where
  busStart : ℕ
  busEnd : ℕ
  configVaddr : ℕ
  start_lt : busStart < 256
  end_lt : busEnd < 256

/-- `pci_addr_t`. -/
structure PciAddr where
  bus : ℕ
  dev : ℕ
  func : ℕ

/-- The fields of `pcie_hdr_com_t` that decide what is read next. -/
structure PcieHdrCom where
  vendorId : ℕ
  hdrType : BitVec 8

variable (c : PcieController) (hdr : ℕ → PcieHdrCom)

/-- `config_size` (lines 24 and 34). A bus takes a mebibyte. -/
def configSize : ℕ := ((c.busEnd - c.busStart + 1 : ℤ) * 2 ^ 20 % 2 ^ 64).toNat

/-- The address of a header (lines 70, 87 and 95). -/
def hdrAddr (a : PciAddr) : ℕ :=
  sizeAdd c.configVaddr ((a.bus * 256 + a.dev * 8 + a.func) * 4096)

/-- `pcie_ecam_dev_detect` (lines 86–102): the functions whose headers are read, where `hdr` is
    what the configuration space holds. -/
def pcieEcamDevDetect (bus dev : ℕ) : List PciAddr :=
  let first := hdr (hdrAddr c ⟨bus, dev, 0⟩)
  ⟨bus, dev, 0⟩ ::
    if first.vendorId = 0xffff then []
    else if first.hdrType &&& 0x80 = 0 then []
    else (List.range' 1 7).map fun func => ⟨bus, dev, func⟩

/-- `pcie_ecam_detect` (lines 105–115). -/
def pcieEcamDetect : List PciAddr :=
  (List.range' c.busStart (c.busEnd + 1 - c.busStart)).flatMap fun bus =>
    (List.range 32).flatMap fun dev => pcieEcamDevDetect c hdr bus dev

/-- `pcie_ecam_vaddr` (lines 118–123), with 0 for `NULL`. -/
def pcieEcamVaddr (a : PciAddr) : ℕ :=
  if a.bus < c.busStart ∨ c.busEnd < a.bus then 0
  else sizeAdd c.configVaddr (((a.bus - c.busStart) * 256 + a.dev * 8 + a.func) * 4096)

/-- What is read lies in the window and is the header that a driver gets. -/
def DetectsOwn : Prop := ∀ a ∈ pcieEcamDetect c hdr,
  (c.configVaddr ≤ hdrAddr c a ∧ hdrAddr c a + 4096 ≤ c.configVaddr + configSize c) ∧
    hdrAddr c a = pcieEcamVaddr c a

variable {c hdr}

theorem mem_detect {a : PciAddr} (h : a ∈ pcieEcamDetect c hdr) :
    c.busStart ≤ a.bus ∧ a.bus ≤ c.busEnd ∧ a.dev < 32 ∧ a.func < 8 := by
  obtain ⟨bus, hbus, h⟩ := List.mem_flatMap.mp h
  obtain ⟨dev, hdev, h⟩ := List.mem_flatMap.mp h
  rw [List.mem_range'_1] at hbus
  rw [List.mem_range] at hdev
  rcases List.mem_cons.mp h with rfl | h
  · exact ⟨hbus.1, by simp only; omega, hdev, by simp⟩
  · split_ifs at h
    · simp at h
    · simp at h
    · obtain ⟨func, hfunc, rfl⟩ := List.mem_map.mp h
      rw [List.mem_range'_1] at hfunc
      exact ⟨hbus.1, by simp only; omega, hdev, by simp only; omega⟩

theorem configSize_eq (h : c.busStart ≤ c.busEnd) :
    configSize c = (c.busEnd - c.busStart + 1) * 2 ^ 20 := by
  have := c.end_lt
  unfold configSize
  omega

/-- The enumeration is right exactly where the first bus is bus 0, or there is no bus. -/
theorem detectsOwn_iff (hwindow : c.configVaddr + configSize c ≤ 2 ^ 64) :
    DetectsOwn c hdr ↔ c.busStart = 0 ∨ c.busEnd < c.busStart := by
  have hend := c.end_lt
  constructor
  · intro h
    by_contra hne
    have hfirst : ⟨c.busStart, 0, 0⟩ ∈ pcieEcamDetect c hdr :=
      List.mem_flatMap.mpr ⟨c.busStart, List.mem_range'_1.mpr (by omega),
        List.mem_flatMap.mpr ⟨0, List.mem_range.mpr (by norm_num), List.mem_cons_self⟩⟩
    have hsize := configSize_eq (c := c) (by omega)
    obtain ⟨hin, hagree⟩ := h _ hfirst
    rw [pcieEcamVaddr, if_neg (by simp only; omega), hdrAddr, sizeAdd, sizeAdd] at hagree
    simp only at hagree
    omega
  · intro h a ha
    obtain ⟨hstart, hbus, hdev, hfunc⟩ := mem_detect ha
    have hsize := configSize_eq (c := c) (by omega)
    rw [hdrAddr, pcieEcamVaddr, if_neg (by omega), sizeAdd_eq (by omega), sizeAdd_eq (by omega)]
    omega

theorem detectsOwn_allBuses :
    DetectsOwn ⟨0, 255, 0x40000000, by decide, by decide⟩ fun _ => ⟨0xffff, 0⟩ :=
  (detectsOwn_iff (by decide)).mpr (.inl rfl)

/-- With bus 1 alone the first header that is read is the one behind the window. -/
theorem detect_beyond_window : ∃ c : PcieController, c.configVaddr + configSize c ≤ 2 ^ 64 ∧
    ∀ hdr, ∃ a ∈ pcieEcamDetect c hdr, hdrAddr c a = c.configVaddr + configSize c ∧
      pcieEcamVaddr c a = c.configVaddr :=
  ⟨⟨1, 1, 0x40000000, by decide, by decide⟩, by decide, fun _ => ⟨⟨1, 0, 0⟩, List.mem_cons_self,
    by decide, by decide⟩⟩

end BadgerOS.Pcie
