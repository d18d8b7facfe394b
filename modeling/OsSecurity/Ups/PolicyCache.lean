/-
The policy files, and the cache of those that have been read.

A policy file is named after the server and the service it is for, so the model keeps the two
numbers in place of the name.  There may be one on the system drive and one in ROM; the first
eclipses the second, unless it cannot be read.  Of what is in a file only the header is kept.

`PolicyDrives.inForce` is the file that counts.  Whatever the cache has loaded comes from there,
which is in the type of its entries, and `serviceConfigL_find` says that the configuration of a
server is what is in force for its services.
-/
import OsSecurity.Library.OrderedInsertion
import OsSecurity.Streams

namespace OsSecurity

open List

variable {aServerSid service : UInt32}

def KErrUpsMissingPolicyFile : Int := -5707

/-- `CPolicyList::TId` -/
structure PolicyListId where
  iServerSid : UInt32
  iServiceId : UInt32
  deriving DecidableEq

/-- The part of the header that is kept. -/
structure TPolicyHeader where
  iMajorVersion : UInt16
  iMinorVersion : UInt16
  iAuthPolicy : UInt8

structure TServiceConfig where
  iServiceId : UInt32
  iPolicy : UInt8
  iMajorVersion : UInt16
  iMinorVersion : UInt16

/-- A policy file, and what comes of reading it. -/
structure PolicyFile where
  id : PolicyListId
  content : Except Int TPolicyHeader

/-- The policy files of a drive.  No two have the same name. -/
abbrev PolicyDrive := List PolicyFile

def PolicyDrive.read (drive : PolicyDrive) (aId : PolicyListId) :
    Option (Except Int TPolicyHeader) :=
  (drive.find? fun file => file.id = aId).map PolicyFile.content

structure PolicyDrives where
  zDrive : PolicyDrive
  systemDrive : PolicyDrive

/-- The header of the file that counts. -/
def PolicyDrives.inForce (drives : PolicyDrives) (aId : PolicyListId) : Option TPolicyHeader :=
  match drives.systemDrive.read aId with
  | some (.ok header) => some header
  | _ =>
    match drives.zDrive.read aId with
    | some (.ok header) => some header
    | _ => none

structure CPolicyList where
  iId : PolicyListId
  iServiceConfig : TServiceConfig

/-- `CPolicyList::ConstructL` -/
def CPolicyList.newL (aId : PolicyListId) (header : TPolicyHeader) : CPolicyList where
  iId := aId
  iServiceConfig := ⟨aId.iServiceId, header.iAuthPolicy, header.iMajorVersion, header.iMinorVersion⟩

/-- A list read from the file in force. -/
def LoadedList (drives : PolicyDrives) : Type :=
  { l : CPolicyList // ∃ header, drives.inForce l.iId = some header ∧ l = .newL l.iId header }

/-- `iPolicyLists` -/
abbrev CPolicyCache (drives : PolicyDrives) := List (LoadedList drives)

namespace PolicyDrives

variable {drives : PolicyDrives} {aId : PolicyListId} {header : TPolicyHeader}

theorem inForce_system (h : drives.systemDrive.read aId = some (.ok header)) :
    drives.inForce aId = some header := by
  unfold inForce
  rw [h]

theorem inForce_z (hsystem : ∀ x, drives.systemDrive.read aId ≠ some (.ok x))
    (h : drives.zDrive.read aId = some (.ok header)) : drives.inForce aId = some header := by
  unfold inForce
  split
  next x hx => exact absurd hx (hsystem x)
  next => rw [h]

def load (h : drives.inForce aId = some header) : LoadedList drives :=
  ⟨.newL aId header, header, h, rfl⟩

end PolicyDrives

namespace CPolicyCache

variable {drives : PolicyDrives}

def policyList (x : CPolicyCache drives) (aId : PolicyListId) : Option (LoadedList drives) :=
  x.find? fun l => l.1.iId = aId

/-- `LocatePolicyFileL` and the parse of what it finds.  A file in ROM that cannot be read
panics; one on the system drive makes way for the one in ROM. -/
def loadPolicyListL (drives : PolicyDrives) (aId : PolicyListId) : Leaving (LoadedList drives) :=
  match hsystem : drives.systemDrive.read aId with
  | some (.ok _) => .ok (PolicyDrives.load (PolicyDrives.inForce_system hsystem))
  | some (.error e) =>
    if e = KErrNoMemory then leave e
    else
      match hz : drives.zDrive.read aId with
      | some (.ok _) =>
        .ok (PolicyDrives.load (PolicyDrives.inForce_z (by simp [hsystem]) hz))
      | some (.error e) => if e = KErrNotFound ∨ e = KErrNoMemory then leave e else panic
      | none => leave KErrNotFound
  | none =>
    match hz : drives.zDrive.read aId with
    | some (.ok _) =>
      .ok (PolicyDrives.load (PolicyDrives.inForce_z (by simp [hsystem]) hz))
    | some (.error e) => if e = KErrNoMemory then leave e else panic
    | none => leave KErrUpsMissingPolicyFile

/-- How `RArray<TUint>` orders its entries. -/
def orderServices (a b : UInt32) : Int := a.toNat - b.toNat

/-- The services of a server that either drive has a file for. -/
def findServicesL (drives : PolicyDrives) (aServerSid : UInt32) : List UInt32 :=
  ((drives.zDrive ++ drives.systemDrive).filter fun file => file.id.iServerSid = aServerSid).foldl
    (fun aServices file =>
      OrderedInsertion.insertInOrder orderServices file.id.iServiceId aServices) []

/-- One round of the loop in `ServiceConfigL`. -/
def serviceL (aServerSid : UInt32) (x : CPolicyCache drives × List TServiceConfig)
    (service : UInt32) : Leaving (CPolicyCache drives × List TServiceConfig) :=
  match policyList x.1 ⟨aServerSid, service⟩ with
  | some l => .ok (x.1, x.2 ++ [l.1.iServiceConfig])
  | none => do
    let l ← loadPolicyListL drives ⟨aServerSid, service⟩
    return (x.1 ++ [l], x.2 ++ [l.1.iServiceConfig])

def serviceConfigL (x : CPolicyCache drives) (aServerSid : UInt32) :
    Leaving (CPolicyCache drives × List TServiceConfig) :=
  (findServicesL drives aServerSid).foldlM (serviceL aServerSid) (x, [])

/-! ### What the configuration says -/

theorem orderServices_zero (a b : UInt32) (h : orderServices a b = 0) : a = b := by
  unfold orderServices at h
  exact UInt32.toNat_inj.mp (by omega)

theorem mem_findServicesL :
    service ∈ findServicesL drives aServerSid ↔
      ∃ file ∈ drives.zDrive ++ drives.systemDrive, file.id = ⟨aServerSid, service⟩ := by
  unfold findServicesL
  rw [← foldl_map (f := fun file : PolicyFile => file.id.iServiceId)
    (g := fun aServices a => OrderedInsertion.insertInOrder orderServices a aServices)]
  rw [OrderedInsertion.mem_foldl_insertInOrder orderServices_zero]
  constructor
  · rintro (h | h)
    · obtain ⟨file, hfile, rfl⟩ := mem_map.mp h
      obtain ⟨hmem, hsid⟩ := mem_filter.mp hfile
      refine ⟨file, hmem, ?_⟩
      have hserver : file.id.iServerSid = aServerSid := by simpa using hsid
      rw [← hserver]
    · cases h
  · rintro ⟨file, hmem, hid⟩
    refine Or.inl (mem_map.mpr ⟨file, mem_filter.mpr ⟨hmem, ?_⟩, ?_⟩)
    · simp [hid]
    · rw [hid]

theorem mem_of_read {drive : PolicyDrive} {aId : PolicyListId} {content : Except Int TPolicyHeader}
    (h : drive.read aId = some content) : ∃ file ∈ drive, file.id = aId := by
  unfold PolicyDrive.read at h
  obtain ⟨file, hfile, -⟩ := Option.map_eq_some_iff.mp h
  exact ⟨file, mem_of_find?_eq_some hfile, by simpa using find?_some hfile⟩

/-- A service with a file in force is found. -/
theorem found_of_inForce {header : TPolicyHeader}
    (h : drives.inForce ⟨aServerSid, service⟩ = some header) :
    service ∈ findServicesL drives aServerSid := by
  rw [mem_findServicesL]
  unfold PolicyDrives.inForce at h
  split at h
  next x hsystem =>
    obtain ⟨file, hmem, hid⟩ := mem_of_read hsystem
    exact ⟨file, mem_append_right _ hmem, hid⟩
  next =>
    split at h
    next x hz =>
      obtain ⟨file, hmem, hid⟩ := mem_of_read hz
      exact ⟨file, mem_append_left _ hmem, hid⟩
    next => cases h

theorem loadPolicyListL_id {aId : PolicyListId} {l : LoadedList drives}
    (h : loadPolicyListL drives aId = .ok l) : l.1.iId = aId := by
  unfold loadPolicyListL at h
  split at h
  · cases h
    rfl
  · split at h
    · cases h
    · split at h
      · cases h
        rfl
      · split at h <;> cases h
      · cases h
  · split at h
    · cases h
      rfl
    · split at h <;> cases h
    · cases h

/-- A configuration that is in force. -/
def InForce (drives : PolicyDrives) (aServerSid service : UInt32) (c : TServiceConfig) : Prop :=
  c.iServiceId = service ∧ ∃ header, drives.inForce ⟨aServerSid, service⟩ = some header ∧
    c.iMajorVersion = header.iMajorVersion

theorem inForce_of_id (l : LoadedList drives) (h : l.1.iId = ⟨aServerSid, service⟩) :
    InForce drives aServerSid service l.1.iServiceConfig := by
  obtain ⟨header, hforce, hlist⟩ := l.2
  rw [h] at hforce hlist
  rw [hlist]
  exact ⟨rfl, header, hforce, rfl⟩

/-- A round adds one configuration, which is in force. -/
theorem serviceL_ok {x y : CPolicyCache drives × List TServiceConfig}
    (h : serviceL aServerSid x service = .ok y) :
    ∃ c, InForce drives aServerSid service c ∧ y.2 = x.2 ++ [c] := by
  unfold serviceL at h
  split at h
  next l hl =>
    cases h
    refine ⟨_, inForce_of_id l ?_, rfl⟩
    unfold policyList at hl
    simpa using find?_some hl
  next =>
    obtain ⟨l, hl, hy⟩ := bind_eq_ok.mp h
    cases hy
    exact ⟨_, inForce_of_id l (loadPolicyListL_id hl), rfl⟩

theorem foldlM_serviceL {services : List UInt32} {x y : CPolicyCache drives × List TServiceConfig}
    (h : services.foldlM (serviceL aServerSid) x = .ok y)
    (hx : ∀ c ∈ x.2, InForce drives aServerSid c.iServiceId c) :
    (∀ c ∈ y.2, InForce drives aServerSid c.iServiceId c) ∧
      (∀ c ∈ x.2, c ∈ y.2) ∧ ∀ service ∈ services, ∃ c ∈ y.2, c.iServiceId = service := by
  induction services generalizing x with
  | nil =>
      cases h
      exact ⟨hx, fun c hc => hc, by simp⟩
  | cons service services ih =>
      rw [foldlM_cons] at h
      obtain ⟨z, hz, hy⟩ := bind_eq_ok.mp h
      obtain ⟨c, hc, hadd⟩ := serviceL_ok hz
      have hforce : ∀ d ∈ z.2, InForce drives aServerSid d.iServiceId d := by
        intro d hd
        rw [hadd] at hd
        rcases mem_append.mp hd with hd | hd
        · exact hx d hd
        · rw [mem_singleton.mp hd, hc.1]
          exact hc
      obtain ⟨hall, hkept, hfound⟩ := ih hy hforce
      have hlast : c ∈ z.2 := by
        rw [hadd]
        exact mem_append_right _ (mem_singleton.mpr rfl)
      refine ⟨hall, ?_, ?_⟩
      · intro d hd
        apply hkept
        rw [hadd]
        exact mem_append_left _ hd
      · intro t ht
        rcases mem_cons.mp ht with rfl | ht
        · exact ⟨c, hkept c hlast, hc.1⟩
        · exact hfound t ht

/-- **The configuration of a server has the versions in force.** -/
theorem serviceConfigL_find {x y : CPolicyCache drives} {configs : List TServiceConfig}
    (h : x.serviceConfigL aServerSid = .ok (y, configs)) (service : UInt32) :
    (configs.find? fun c => c.iServiceId = service).map TServiceConfig.iMajorVersion =
      (drives.inForce ⟨aServerSid, service⟩).map TPolicyHeader.iMajorVersion := by
  obtain ⟨hall, -, hfound⟩ := foldlM_serviceL h (by simp)
  cases hfind : configs.find? fun c => c.iServiceId = service with
  | some c =>
      have hservice : c.iServiceId = service := by simpa using find?_some hfind
      obtain ⟨-, header, hforce, hmajor⟩ := hall c (mem_of_find?_eq_some hfind)
      rw [hservice] at hforce
      rw [hforce, Option.map_some, Option.map_some, hmajor]
  | none =>
      cases hforce : drives.inForce ⟨aServerSid, service⟩ with
      | none => rfl
      | some header =>
        obtain ⟨c, hc, hservice⟩ := hfound service (found_of_inForce hforce)
        have hnot := find?_eq_none.mp hfind c hc
        exact absurd (by simpa using hservice) hnot

end CPolicyCache

end OsSecurity
