import Mathlib.Data.List.Nodup
import Mathlib.Data.Nat.Bitwise
import Dbos.Foundation.Numerals

/-! # PCI devices

The configuration space is read through a port for the address and a port for the data. A
read takes the half of the data that bit 1 of the register selects, so a register with an
odd number is read as the one below it. The names of a device and what depends on the type
of its header are left out. -/

namespace Dbos.Pci

/-! ## Registers -/

def pciFail : Nat := 0xFFFF
def pciMultiFunc : Nat := 0x80

def pciVenId : Nat := 0x00
def pciDevId : Nat := 0x02
def pciRevisionId : Nat := 0x08
def pciProgIf : Nat := 0x09
def pciSubClass : Nat := 0x0A
def pciClassCode : Nat := 0x0B
def pciCacheLine : Nat := 0x0C
def pciLatencyTimer : Nat := 0x0D
def pciHeaderType : Nat := 0x0E
def pciBist : Nat := 0x0F
def pciSecondaryBus : Nat := 0x19

def pciFunPerDev : Nat := 8
def pciDevPerBus : Nat := 32

def pciBaseClassBridge : Nat := 0x06
def pciSubClassBridge : Nat := 0x04

/-- The bytes of the registers of each function of each device on each bus. -/
abbrev Space := (bus device function register : Nat) → UInt8

/-- What the data port gives for an address: the four registers at it. -/
def readPort (space : Space) (address : Nat) : Nat :=
  let register := address % 0x100
  let byte := fun index => (space (address / 0x10000 % 0x100) (address / 0x800 % 0x20)
    (address / 0x100 % 8) (register + index)).toNat
  byte 0 + 0x100 * byte 1 + 0x10000 * byte 2 + 0x1000000 * byte 3

/-! ## The functions -/

def pciMakeConfigSpace (busNo deviceNo functionNo regNo : Nat) : Nat :=
  0x80000000 ||| busNo <<< 16 ||| deviceNo <<< 11 ||| functionNo <<< 8 ||| (regNo &&& 0xFC)

/-- `pci_read`, with `pci_read_base`. -/
def pciRead (space : Space) (busNo deviceNo functionNo regNo : Nat) : Nat :=
  let read := readPort space (pciMakeConfigSpace busNo deviceNo functionNo regNo)
  (read >>> ((regNo &&& 2) * 8)) &&& pciFail

def pciReadByte (space : Space) (busNo deviceNo functionNo regNo : Nat) : Nat :=
  pciRead space busNo deviceNo functionNo regNo % 0x100

/-- `pci_dev_t`. -/
structure Device where
  bus : Nat
  dev : Nat
  venId : Nat
  devId : Nat
  revId : Nat
  progIf : Nat
  subClass : Nat
  classCode : Nat
  cacheLineSize : Nat
  latencyTimer : Nat
  headerType : Nat
  bist : Nat
deriving DecidableEq

def pciBuildDevice (space : Space) (bus dev ven bc sc hdr : Nat) : Device where
  bus := bus
  dev := dev
  venId := ven
  devId := pciRead space bus dev 0 pciDevId
  revId := pciReadByte space bus dev 0 pciRevisionId
  progIf := pciReadByte space bus dev 0 pciProgIf
  subClass := sc
  classCode := bc
  cacheLineSize := pciReadByte space bus dev 0 pciCacheLine
  latencyTimer := pciReadByte space bus dev 0 pciLatencyTimer
  headerType := hdr
  bist := pciReadByte space bus dev 0 pciBist

/-- `pci_scan_bus`, with the list that `pci_devices` is. The fuel bounds how deep the calls
of itself go. -/
def pciScanBus (space : Space) : (fuel busNo : Nat) → List Device → Option (List Device)
  | 0, _, _ => none
  | fuel + 1, busNo, devices =>
      (List.range pciDevPerBus).foldlM (fun devices d =>
        let venId := pciRead space busNo d 0 pciVenId
        if venId = pciFail then some devices
        else
          let scanBehind := fun (f baseClass subClass : Nat) (devices : List Device) =>
            if baseClass = pciBaseClassBridge ∧ subClass = pciSubClassBridge then
              pciScanBus space fuel (pciReadByte space busNo d f pciSecondaryBus) devices
            else some devices
          let baseClass := pciReadByte space busNo d 0 pciClassCode
          let subClass := pciReadByte space busNo d 0 pciSubClass
          let headerType := pciReadByte space busNo d 0 pciHeaderType
          (scanBehind 0 baseClass subClass devices).bind fun devices =>
            (if headerType &&& pciMultiFunc ≠ 0 then
              (List.range pciFunPerDev).foldlM (fun devices f =>
                if pciRead space busNo d f pciVenId = pciFail then some devices
                else scanBehind f (pciReadByte space busNo d f pciClassCode)
                  (pciReadByte space busNo d f pciSubClass) devices) devices
            else some devices).map fun devices =>
              devices ++ [pciBuildDevice space busNo d venId baseClass subClass headerType])
        devices

/-- The loop of `pci_initialise` over the functions of the first device. -/
def scanHosts (space : Space) (fuel : Nat) : (left i : Nat) → List Device → Option (List Device)
  | 0, _, devices => some devices
  | left + 1, i, devices =>
      if pciRead space 0 0 i pciVenId ≠ pciFail then some devices
      else (pciScanBus space fuel i devices).bind (scanHosts space fuel left (i + 1))

def pciInitialise (space : Space) (fuel : Nat) : Option (List Device) :=
  if pciReadByte space 0 0 0 pciHeaderType &&& pciMultiFunc = 0 then pciScanBus space fuel 0 []
  else scanHosts space fuel pciFunPerDev 0 []

/-! ## What a read gives -/

variable {space : Space} {bus dev fn register : Nat}

theorem toNat_makeConfigSpace (busBound : bus < 0x100) (devBound : dev < 0x20) (fnBound : fn < 8)
    (registerBound : register < 0x100) :
    pciMakeConfigSpace bus dev fn register =
      0x80000000 + bus * 0x10000 + dev * 0x800 + fn * 0x100 + register / 4 * 4 := by
  have aligned : register &&& 0xFC = register / 4 * 4 := by
    have all : ∀ number < 0x100, number &&& 0xFC = number / 4 * 4 := by decide +kernel
    exact all register registerBound
  unfold pciMakeConfigSpace
  rw [aligned]
  simp only [Nat.shiftLeft_eq]
  have first := Numerals.shifted_or 31 1 (show bus * 2 ^ 16 < 2 ^ 31 by omega)
  have second := Numerals.shifted_or 16 (2 ^ 15 + bus) (show dev * 2 ^ 11 < 2 ^ 16 by omega)
  have third := Numerals.shifted_or 11 (2 ^ 20 + bus * 2 ^ 5 + dev)
    (show fn * 2 ^ 8 < 2 ^ 11 by omega)
  have fourth := Numerals.shifted_or 8 (2 ^ 23 + bus * 2 ^ 8 + dev * 2 ^ 3 + fn)
    (show register / 4 * 4 < 2 ^ 8 by omega)
  rw [show 0x80000000 = 1 * 2 ^ 31 from rfl, first,
    show 1 * 2 ^ 31 + bus * 2 ^ 16 = (2 ^ 15 + bus) * 2 ^ 16 by omega, second,
    show (2 ^ 15 + bus) * 2 ^ 16 + dev * 2 ^ 11 = (2 ^ 20 + bus * 2 ^ 5 + dev) * 2 ^ 11 by omega,
    third, show (2 ^ 20 + bus * 2 ^ 5 + dev) * 2 ^ 11 + fn * 2 ^ 8 =
      (2 ^ 23 + bus * 2 ^ 8 + dev * 2 ^ 3 + fn) * 2 ^ 8 by omega, fourth]
  omega

/-- A read gives the two bytes of the even register. -/
theorem pciRead_eq (space : Space) (busBound : bus < 0x100) (devBound : dev < 0x20)
    (fnBound : fn < 8) (registerBound : register < 0x100) :
    pciRead space bus dev fn register =
      (space bus dev fn (register / 2 * 2)).toNat +
        0x100 * (space bus dev fn (register / 2 * 2 + 1)).toNat := by
  have byteBound (number : Nat) := (space bus dev fn number).toNat_lt
  have lane : (register &&& 2) * 8 = register / 2 % 2 * 16 := by
    have all : ∀ number < 0x100, (number &&& 2) * 8 = number / 2 % 2 * 16 := by decide +kernel
    exact all register registerBound
  unfold pciRead readPort pciFail
  rw [lane, toNat_makeConfigSpace busBound devBound fnBound registerBound]
  have isRegister : (0x80000000 + bus * 0x10000 + dev * 0x800 + fn * 0x100 + register / 4 * 4) %
      0x100 = register / 4 * 4 := by omega
  have isFn : (0x80000000 + bus * 0x10000 + dev * 0x800 + fn * 0x100 + register / 4 * 4) /
      0x100 % 8 = fn := by omega
  have isDev : (0x80000000 + bus * 0x10000 + dev * 0x800 + fn * 0x100 + register / 4 * 4) /
      0x800 % 0x20 = dev := by omega
  have isBus : (0x80000000 + bus * 0x10000 + dev * 0x800 + fn * 0x100 + register / 4 * 4) /
      0x10000 % 0x100 = bus := by omega
  simp only [isRegister, isFn, isDev, isBus]
  rw [Nat.shiftRight_eq_div_pow, show 0xFFFF = 2 ^ 16 - 1 from rfl, Nat.and_two_pow_sub_one_eq_mod]
  have byte0 := byteBound (register / 4 * 4)
  have byte1 := byteBound (register / 4 * 4 + 1)
  have byte2 := byteBound (register / 4 * 4 + 2)
  have byte3 := byteBound (register / 4 * 4 + 3)
  rcases Nat.mod_two_eq_zero_or_one (register / 2) with isLow | isHigh
  · rw [isLow, show register / 2 * 2 = register / 4 * 4 by omega]
    simp only [Nat.add_zero]
    omega
  · rw [isHigh, show register / 2 * 2 = register / 4 * 4 + 2 by omega, Nat.add_assoc _ 2 1]
    simp only [Nat.add_zero, Nat.reduceAdd]
    omega

theorem pciReadByte_eq (space : Space) (busBound : bus < 0x100) (devBound : dev < 0x20)
    (fnBound : fn < 8) (registerBound : register < 0x100) :
    pciReadByte space bus dev fn register = (space bus dev fn (register / 2 * 2)).toNat := by
  have byteBound := (space bus dev fn (register / 2 * 2)).toNat_lt
  unfold pciReadByte
  rw [pciRead_eq space busBound devBound fnBound registerBound]
  omega

/-! ## One bus -/

def vendor (space : Space) (bus dev fn : Nat) : Nat :=
  (space bus dev fn pciVenId).toNat + 0x100 * (space bus dev fn (pciVenId + 1)).toNat

theorem pciRead_venId (space : Space) (busBound : bus < 0x100) (devBound : dev < 0x20)
    (fnBound : fn < 8) : pciRead space bus dev fn pciVenId = vendor space bus dev fn :=
  pciRead_eq space busBound devBound fnBound (by decide)

/-- What the entry of a device is built from. -/
def entryOf (space : Space) (bus dev : Nat) : Device :=
  pciBuildDevice space bus dev (pciRead space bus dev 0 pciVenId)
    (pciReadByte space bus dev 0 pciClassCode) (pciReadByte space bus dev 0 pciSubClass)
    (pciReadByte space bus dev 0 pciHeaderType)

theorem not_bridge (space : Space) (busBound : bus < 0x100) (devBound : dev < 0x20)
    (fnBound : fn < 8) :
    ¬(pciReadByte space bus dev fn pciClassCode = pciBaseClassBridge ∧
      pciReadByte space bus dev fn pciSubClass = pciSubClassBridge) := by
  rw [pciReadByte_eq space busBound devBound fnBound (by decide),
    pciReadByte_eq space busBound devBound fnBound (by decide)]
  unfold pciClassCode pciSubClass pciBaseClassBridge pciSubClassBridge
  rintro ⟨isBase, isSub⟩
  exact absurd (isBase.symm.trans isSub) (by decide)

theorem foldlM_unchanged {Item Result : Type} {items : List Item}
    {step : Result → Item → Option Result}
    (result : Result) (same : ∀ item ∈ items, step result item = some result) :
    items.foldlM step result = some result := by
  induction items with
  | nil => rfl
  | cons item items induction =>
      rw [List.foldlM_cons, same item List.mem_cons_self]
      exact induction fun other isMember => same other (List.mem_cons_of_mem _ isMember)

theorem foldlM_filter {Item Result : Type} {items : List Item} (accept : Item → Bool)
    (make : Item → Result) {step : List Result → Item → Option (List Result)}
    (results : List Result)
    (isStep : ∀ item ∈ items, ∀ results, step results item =
      some (if accept item then results ++ [make item] else results)) :
    items.foldlM step results = some (results ++ (items.filter accept).map make) := by
  induction items generalizing results with
  | nil =>
      rw [List.filter_nil, List.map_nil, List.append_nil]
      rfl
  | cons item items induction =>
      rw [List.foldlM_cons, isStep item List.mem_cons_self]
      have others := fun other isMember => isStep other (List.mem_cons_of_mem item isMember)
      cases accepted : accept item with
      | true =>
          rw [List.filter_cons_of_pos accepted, List.map_cons]
          exact (induction _ others).trans (by rw [if_pos rfl, List.append_assoc]; rfl)
      | false =>
          rw [List.filter_cons_of_neg (by rw [accepted]; decide)]
          exact induction _ others

def hasFunction (space : Space) (bus dev : Nat) : Bool := vendor space bus dev 0 ≠ pciFail

theorem pciScanBus_eq (space : Space) (busBound : bus < 0x100) (fuel : Nat)
    (devices : List Device) :
    pciScanBus space (fuel + 1) bus devices =
      some (devices ++ ((List.range pciDevPerBus).filter (hasFunction space bus)).map
        (entryOf space bus)) := by
  unfold pciScanBus
  apply foldlM_filter
  intro d isDevice devices
  have devBound : d < 0x20 := List.mem_range.mp isDevice
  unfold hasFunction
  rw [← pciRead_venId space busBound devBound (by decide)]
  by_cases absent : pciRead space bus d 0 pciVenId = pciFail
  · simp [absent]
  · have functions : (List.range pciFunPerDev).foldlM (fun devices f =>
        if pciRead space bus d f pciVenId = pciFail then some devices
        else
          if pciReadByte space bus d f pciClassCode = pciBaseClassBridge ∧
              pciReadByte space bus d f pciSubClass = pciSubClassBridge then
            pciScanBus space fuel (pciReadByte space bus d f pciSecondaryBus) devices
          else some devices) devices = some devices := by
      apply foldlM_unchanged
      intro f isFunction
      rw [if_neg (not_bridge space busBound devBound (List.mem_range.mp isFunction)), ite_self]
    simp only [if_neg absent, if_neg (not_bridge space busBound devBound (show 0 < 8 by decide)),
      Option.bind_some, functions, ite_self, Option.map_some]
    simp [absent, entryOf]

/-! ## All buses -/

/-- The buses that `pci_initialise` scans: the first one, or one for each absent function in
front of the first function that is there. -/
def Scanned (space : Space) (bus : Nat) : Prop :=
  if (space 0 0 0 pciHeaderType).toNat &&& pciMultiFunc = 0 then bus = 0
  else bus < pciFunPerDev ∧ ∀ fn ≤ bus, vendor space 0 0 fn = pciFail

/-- How many functions in front of it are absent, from this one on. -/
def absentFrom (space : Space) : (left i : Nat) → Nat
  | 0, _ => 0
  | left + 1, i => if vendor space 0 0 i ≠ pciFail then 0 else absentFrom space left (i + 1) + 1

theorem lt_absentFrom_iff {left i count : Nat} :
    count < absentFrom space left i ↔
      count < left ∧ ∀ fn, i ≤ fn → fn ≤ i + count → vendor space 0 0 fn = pciFail := by
  induction left generalizing i count with
  | zero => simp [absentFrom]
  | succ left induction =>
      rw [absentFrom]
      by_cases absent : vendor space 0 0 i = pciFail
      · rw [if_neg (not_not_intro absent)]
        cases count with
        | zero =>
            refine ⟨fun _ => ⟨by omega, fun fn above below => ?_⟩, fun _ => Nat.zero_lt_succ _⟩
            rwa [show fn = i by omega]
        | succ count =>
            rw [Nat.add_lt_add_iff_right, induction]
            constructor
            · rintro ⟨less, others⟩
              refine ⟨by omega, fun fn above below => ?_⟩
              by_cases isFirst : fn = i
              · rwa [isFirst]
              · exact others fn (by omega) (by omega)
            · rintro ⟨less, all⟩
              exact ⟨by omega, fun fn above below => all fn (by omega) (by omega)⟩
      · rw [if_pos absent]
        constructor
        · exact fun less => absurd less (Nat.not_lt_zero _)
        · exact fun ⟨_, all⟩ => absurd (all i (Nat.le_refl i) (by omega)) absent

def busEntries (space : Space) (bus : Nat) : List Device :=
  ((List.range pciDevPerBus).filter (hasFunction space bus)).map (entryOf space bus)

theorem scanHosts_eq (fuel : Nat) {left i : Nat} (bound : left + i ≤ 8) (devices : List Device) :
    scanHosts space (fuel + 1) left i devices =
      some (devices ++ (List.range' i (absentFrom space left i)).flatMap (busEntries space)) := by
  induction left generalizing i devices with
  | zero =>
      rw [absentFrom, List.range'_zero, List.flatMap_nil, List.append_nil]
      rfl
  | succ left induction =>
      rw [scanHosts, absentFrom, pciRead_venId space (by decide) (by decide) (by omega)]
      by_cases absent : vendor space 0 0 i = pciFail
      · rw [if_neg (not_not_intro absent), if_neg (not_not_intro absent),
          pciScanBus_eq space (by omega), Option.bind_some, induction (by omega), List.range'_succ,
          List.flatMap_cons, List.append_assoc]
        rfl
      · rw [if_pos absent, if_pos absent, List.range'_zero, List.flatMap_nil, List.append_nil]

def scannedBuses (space : Space) : List Nat :=
  List.range' 0 (if (space 0 0 0 pciHeaderType).toNat &&& pciMultiFunc = 0 then 1
    else absentFrom space pciFunPerDev 0)

/-- The list that `pci_initialise` makes, whatever is behind the bridges. -/
theorem pciInitialise_eq (space : Space) (fuel : Nat) :
    pciInitialise space (fuel + 1) =
      some ((scannedBuses space).flatMap (busEntries space)) := by
  have header : pciReadByte space 0 0 0 pciHeaderType = (space 0 0 0 pciHeaderType).toNat :=
    pciReadByte_eq space (by decide) (by decide) (by decide) (by decide)
  unfold pciInitialise scannedBuses
  rw [header]
  split
  · rw [pciScanBus_eq space (by decide)]
    simp [busEntries]
  · rw [scanHosts_eq fuel (by decide), List.nil_append]

theorem mem_scannedBuses (bus : Nat) : bus ∈ scannedBuses space ↔ Scanned space bus := by
  unfold Scanned scannedBuses
  rw [List.mem_range'_1]
  split
  · omega
  · rw [Nat.zero_add, lt_absentFrom_iff]
    simp only [Nat.zero_le, true_and, Nat.zero_add, forall_true_left]

/-! ## What is there -/

/-- A function of a device that has a function 0. -/
def Present (space : Space) (bus dev fn : Nat) : Prop :=
  vendor space bus dev 0 ≠ pciFail ∧
    (fn = 0 ∨ (space bus dev 0 pciHeaderType).toNat &&& pciMultiFunc ≠ 0 ∧
      vendor space bus dev fn ≠ pciFail)

/-- The first bus, and the buses behind bridges. -/
inductive Behind (space : Space) : Nat → Prop where
  | first : Behind space 0
  | bridge {bus dev fn : Nat} : Behind space bus → dev < pciDevPerBus → fn < pciFunPerDev →
      Present space bus dev fn → (space bus dev fn pciClassCode).toNat = pciBaseClassBridge →
      (space bus dev fn pciSubClass).toNat = pciSubClassBridge →
      Behind space (space bus dev fn pciSecondaryBus).toNat

/-- The fields of eight bits have the bytes of their registers. -/
structure FieldsExact (space : Space) (device : Device) : Prop where
  classCode : device.classCode = (space device.bus device.dev 0 pciClassCode).toNat
  subClass : device.subClass = (space device.bus device.dev 0 pciSubClass).toNat
  progIf : device.progIf = (space device.bus device.dev 0 pciProgIf).toNat
  headerType : device.headerType = (space device.bus device.dev 0 pciHeaderType).toNat
  latencyTimer : device.latencyTimer = (space device.bus device.dev 0 pciLatencyTimer).toNat
  bist : device.bist = (space device.bus device.dev 0 pciBist).toNat

def Device.place (device : Device) : Nat × Nat := (device.bus, device.dev)

/-- The enumeration ends, with one entry for each device that is there. -/
def Enumerated (space : Space) : Prop :=
  ∃ depth devices, (∀ fuel ≥ depth, pciInitialise space fuel = some devices) ∧
    (devices.map Device.place).Nodup ∧
    (∀ bus dev, (bus, dev) ∈ devices.map Device.place ↔
      Behind space bus ∧ dev < pciDevPerBus ∧ Present space bus dev 0) ∧
    ∀ device ∈ devices, FieldsExact space device

/-- The registers with odd numbers have the bytes of those below them. -/
structure SameBelow (space : Space) (bus dev : Nat) : Prop where
  classCode : space bus dev 0 pciClassCode = space bus dev 0 pciSubClass
  progIf : space bus dev 0 pciProgIf = space bus dev 0 pciRevisionId
  latencyTimer : space bus dev 0 pciLatencyTimer = space bus dev 0 pciCacheLine
  bist : space bus dev 0 pciBist = space bus dev 0 pciHeaderType

theorem fieldsExact_entryOf_iff (busBound : bus < 0x100) (devBound : dev < 0x20) :
    FieldsExact space (entryOf space bus dev) ↔ SameBelow space bus dev := by
  have read {register : Nat} (registerBound : register < 0x100) :
      pciReadByte space bus dev 0 register = (space bus dev 0 (register / 2 * 2)).toNat :=
    pciReadByte_eq space busBound devBound (by decide) registerBound
  have classCode : (entryOf space bus dev).classCode = (space bus dev 0 pciSubClass).toNat :=
    read (by decide)
  have subClass : (entryOf space bus dev).subClass = (space bus dev 0 pciSubClass).toNat :=
    read (by decide)
  have progIf : (entryOf space bus dev).progIf = (space bus dev 0 pciRevisionId).toNat :=
    read (by decide)
  have headerType : (entryOf space bus dev).headerType = (space bus dev 0 pciHeaderType).toNat :=
    read (by decide)
  have latencyTimer : (entryOf space bus dev).latencyTimer = (space bus dev 0 pciCacheLine).toNat :=
    read (by decide)
  have bist : (entryOf space bus dev).bist = (space bus dev 0 pciHeaderType).toNat :=
    read (by decide)
  constructor
  · intro exact
    constructor
    · exact (UInt8.toNat_inj.mp (classCode.symm.trans exact.classCode)).symm
    · exact (UInt8.toNat_inj.mp (progIf.symm.trans exact.progIf)).symm
    · exact (UInt8.toNat_inj.mp (latencyTimer.symm.trans exact.latencyTimer)).symm
    · exact (UInt8.toNat_inj.mp (bist.symm.trans exact.bist)).symm
  · intro same
    constructor
    · exact classCode.trans (congrArg UInt8.toNat same.classCode.symm)
    · exact subClass
    · exact progIf.trans (congrArg UInt8.toNat same.progIf.symm)
    · exact headerType
    · exact latencyTimer.trans (congrArg UInt8.toNat same.latencyTimer.symm)
    · exact bist.trans (congrArg UInt8.toNat same.bist.symm)

theorem mem_busEntries {device : Device} :
    device ∈ busEntries space bus ↔
      ∃ dev < pciDevPerBus, hasFunction space bus dev = true ∧ device = entryOf space bus dev := by
  unfold busEntries
  simp only [List.mem_map, List.mem_filter, List.mem_range, and_assoc, eq_comm]

theorem mem_places {buses : List Nat} :
    (bus, dev) ∈ (buses.flatMap (busEntries space)).map Device.place ↔
      bus ∈ buses ∧ dev < pciDevPerBus ∧ hasFunction space bus dev = true := by
  simp only [List.mem_map, List.mem_flatMap, mem_busEntries]
  constructor
  · rintro ⟨device, ⟨other, isBus, found, isDevice, has, rfl⟩, isPlace⟩
    cases isPlace
    exact ⟨isBus, isDevice, has⟩
  · rintro ⟨isBus, isDevice, has⟩
    exact ⟨entryOf space bus dev, ⟨bus, isBus, dev, isDevice, has, rfl⟩, rfl⟩

theorem nodup_places {buses : List Nat} (distinct : buses.Nodup) :
    ((buses.flatMap (busEntries space)).map Device.place).Nodup := by
  rw [List.map_flatMap, List.nodup_flatMap]
  constructor
  · intro bus _
    unfold busEntries
    rw [List.map_map]
    apply List.Nodup.map
    · intro dev other same
      exact (Prod.mk.inj same).2
    · exact List.nodup_range.filter _
  · apply List.Pairwise.imp _ distinct
    intro bus other different place isPlace isOther
    obtain ⟨device, isDevice, rfl⟩ := List.mem_map.mp isPlace
    obtain ⟨otherDevice, isOtherDevice, same⟩ := List.mem_map.mp isOther
    obtain ⟨dev, -, -, rfl⟩ := mem_busEntries.mp isDevice
    obtain ⟨otherDev, -, -, rfl⟩ := mem_busEntries.mp isOtherDevice
    exact different (Prod.mk.inj same).1.symm

/-- The buses with devices that are there are scanned, and each odd register of a device is
like the even one below it: if and only if this is so, the enumeration is exact. -/
theorem devicesEnumerated_iff (space : Space) :
    Enumerated space ↔
      (∀ bus dev, dev < pciDevPerBus → vendor space bus dev 0 ≠ pciFail →
        (Scanned space bus ↔ Behind space bus)) ∧
      ∀ bus dev, Scanned space bus → dev < pciDevPerBus → vendor space bus dev 0 ≠ pciFail →
        SameBelow space bus dev := by
  have scannedBound {bus : Nat} (scanned : Scanned space bus) : bus < 0x100 := by
    unfold Scanned pciFunPerDev at scanned
    split at scanned
    · omega
    · omega
  have present {bus dev : Nat} : Present space bus dev 0 ↔ vendor space bus dev 0 ≠ pciFail :=
    ⟨fun isPresent => isPresent.1, fun isVendor => ⟨isVendor, .inl rfl⟩⟩
  constructor
  · rintro ⟨depth, devices, isList, -, places, fields⟩
    have isDevices := isList (depth + 1) (Nat.le_succ depth)
    rw [pciInitialise_eq, Option.some_inj] at isDevices
    subst isDevices
    constructor
    · intro bus dev isDevice isVendor
      have isPlace := places bus dev
      rw [mem_places, mem_scannedBuses, present] at isPlace
      have has : hasFunction space bus dev = true := decide_eq_true isVendor
      simpa only [isDevice, has, isVendor, and_true, ne_eq, not_false_eq_true] using isPlace
    · intro bus dev scanned isDevice isVendor
      rw [← fieldsExact_entryOf_iff (scannedBound scanned) isDevice]
      apply fields
      rw [List.mem_flatMap]
      exact ⟨bus, (mem_scannedBuses bus).mpr scanned,
        mem_busEntries.mpr ⟨dev, isDevice, decide_eq_true isVendor, rfl⟩⟩
  · rintro ⟨buses, registers⟩
    have distinct : (scannedBuses space).Nodup := List.nodup_range'
    refine ⟨1, (scannedBuses space).flatMap (busEntries space), fun fuel enough => ?_,
      nodup_places distinct, ?_, ?_⟩
    · obtain ⟨less, rfl⟩ := Nat.exists_eq_add_of_le' enough
      exact pciInitialise_eq space less
    · intro bus dev
      rw [mem_places, mem_scannedBuses, present]
      unfold hasFunction
      rw [decide_eq_true_iff]
      constructor
      · exact fun ⟨scanned, isDevice, isVendor⟩ =>
          ⟨(buses bus dev isDevice isVendor).mp scanned, isDevice, isVendor⟩
      · exact fun ⟨behind, isDevice, isVendor⟩ =>
          ⟨(buses bus dev isDevice isVendor).mpr behind, isDevice, isVendor⟩
    · intro device isMember
      obtain ⟨bus, isBus, isEntry⟩ := List.mem_flatMap.mp isMember
      obtain ⟨dev, isDevice, has, rfl⟩ := mem_busEntries.mp isEntry
      have scanned := (mem_scannedBuses bus).mp isBus
      rw [fieldsExact_entryOf_iff (scannedBound scanned) isDevice]
      exact registers bus dev scanned isDevice (of_decide_eq_true has)

/-- A host bridge alone, with single functions: vendor 8086, device 1237, class 06 00. -/
def hostBridge : Space := fun bus device function register =>
  if bus = 0 ∧ device = 0 ∧ function = 0 then
    match register with
    | 0x00 => 0x86
    | 0x01 => 0x80
    | 0x02 => 0x37
    | 0x03 => 0x12
    | 0x0B => 0x06
    | _ => 0
  else 0xFF

/-- The class of the host bridge is listed as 0. -/
theorem not_enumerated_hostBridge : ¬Enumerated hostBridge := by
  rintro ⟨depth, devices, isList, -, -, fields⟩
  have isDevices := isList (depth + 1) (Nat.le_succ depth)
  rw [pciInitialise_eq, Option.some_inj] at isDevices
  have isMember : entryOf hostBridge 0 0 ∈ devices := by
    rw [← isDevices, List.mem_flatMap]
    exact ⟨0, by decide, mem_busEntries.mpr ⟨0, by decide, by decide, rfl⟩⟩
  have isClass := (fields _ isMember).classCode
  revert isClass
  decide

theorem pciInitialise_multiFunction
    (multi : (space 0 0 0 pciHeaderType).toNat &&& pciMultiFunc ≠ 0)
    (host : vendor space 0 0 0 ≠ pciFail) (fuel : Nat) :
    pciInitialise space (fuel + 1) = some [] := by
  rw [pciInitialise_eq, scannedBuses, if_neg multi]
  unfold pciFunPerDev absentFrom
  rw [if_pos host]
  rfl

end Dbos.Pci
