import ByoriDB.Meta.Partitions

/-! A host without a heartbeat is removed, and its partitions are meant to go to a healthy host. -/

namespace ByoriDB.Meta

open List Data

abbrev HostAddr := String × Nat

structure StorageHostInfo where
  lastHeartbeat : Nat
  partitions : List (Nat × Nat)

structure MetaService where
  hostTimeout : Nat
  storageHosts : List (HostAddr × StorageHostInfo)
  registered : (storageHosts.map Prod.fst).Nodup
  partAllocations : Table Nat (Table Nat (List HostAddr))

structure FailureDetectorConfig where
  minHealthyNodes : Nat
  autoReassign : Bool

structure FailedNode where
  addr : HostAddr
  partitionsAffected : List (Nat × Nat)

structure MigrationTask where
  partId : Nat
  source : HostAddr
  target : HostAddr
  isPrimary : Bool

structure RecoveryResult where
  failedNodes : List FailedNode
  migrationsExecuted : List MigrationTask

namespace MetaService

section

variable (service : MetaService) (now : Nat)

def isStale (info : StorageHostInfo) : Bool :=
  service.hostTimeout ≤ now - info.lastHeartbeat

def cleanupStaleHosts : List HostAddr × MetaService :=
  (((service.storageHosts.filter fun entry => service.isStale now entry.2).map Prod.fst), { service with
      storageHosts := service.storageHosts.filter fun entry => !service.isStale now entry.2
      registered := service.registered.sublist (filter_sublist.map Prod.fst) })

def getActiveStorageHosts : List HostAddr :=
  (service.storageHosts.filter fun entry => now - entry.2.lastHeartbeat < service.hostTimeout).map Prod.fst

def getHostPartitions (addr : HostAddr) : List (Nat × Nat) :=
  ((service.storageHosts.lookup addr).map StorageHostInfo.partitions).getD []

def getPartHosts (spaceId partId : Nat) : Option (List HostAddr) :=
  (service.partAllocations.get spaceId).bind fun parts => parts.get partId

def updatePartAllocation (spaceId partId : Nat) (hosts : List HostAddr) : MetaService :=
  { service with
    partAllocations := service.partAllocations.insert spaceId
      (((service.partAllocations.get spaceId).getD .empty).insert partId hosts) }

/-- Only the metadata changes: the source node is dead. -/
def reassign (failedNodes : List FailedNode) (healthyHosts : List HostAddr) (spaceId partId : Nat)
    (before : MetaService × List MigrationTask) : MetaService × List MigrationTask :=
  match healthyHosts.head?, failedNodes.find? fun node => (spaceId, partId) ∈ node.partitionsAffected with
  | some target, some failed =>
    let service := match before.1.getPartHosts spaceId partId with
      | some hosts => before.1.updatePartAllocation spaceId partId (hosts.filter (· ≠ failed.addr) ++ [target])
      | none => before.1
    (service, before.2 ++ [⟨partId, failed.addr, target, true⟩])
  | _, _ => before

def spacePartitions (affected : List (Nat × Nat)) : Table Nat (List Nat) :=
  affected.foldl (fun spaces part => spaces.insert part.1 ((spaces.get part.1).getD [] ++ [part.2])) .empty

/-- The clock is read by the cleanup and again by the list of active hosts. -/
def checkAndRecover (config : FailureDetectorConfig) (now later : Nat) : MetaService × Option RecoveryResult :=
  let (removed, service) := service.cleanupStaleHosts now
  if removed.isEmpty then (service, none)
  else
    let healthy := service.getActiveStorageHosts later
    if healthy.length < config.minHealthyNodes then (service, none)
    else if !config.autoReassign then (service, none)
    else
      let failedNodes := (removed.map fun addr => FailedNode.mk addr (service.getHostPartitions addr)).filter
        fun node => !node.partitionsAffected.isEmpty
      let affected := failedNodes.flatMap FailedNode.partitionsAffected
      if affected.isEmpty then (service, some ⟨failedNodes, []⟩)
      else
        let (service, executed) := (spacePartitions affected).toList.foldl (fun done space =>
          space.2.foldl (fun done partId => reassign failedNodes healthy space.1 partId done) done) (service, [])
        (service, some ⟨failedNodes, executed⟩)

end

variable {service : MetaService}

/-- A removed host is not found any more when its partitions are looked up. -/
theorem getHostPartitions_removed (removed : addr ∈ (service.cleanupStaleHosts now).1) :
    (service.cleanupStaleHosts now).2.getHostPartitions addr = [] := by
  obtain ⟨⟨addr, stale⟩, listed, rfl⟩ := mem_map.mp removed
  obtain ⟨listed, isStale⟩ := mem_filter.mp listed
  have missing : (service.cleanupStaleHosts now).2.storageHosts.lookup addr = none := by
    rw [lookup_eq_none_iff]
    rintro ⟨other, info⟩ kept
    obtain ⟨kept, fresh⟩ := mem_filter.mp kept
    rw [bne_iff_ne]
    rintro rfl
    cases inj_on_of_nodup_map service.registered listed kept rfl
    simp [isStale] at fresh
  rw [getHostPartitions, missing, Option.map_none, Option.getD_none]

/-- So no partition counts as affected, and no allocation changes. -/
theorem checkAndRecover_service : (service.checkAndRecover config now later).1 = (service.cleanupStaleHosts now).2 := by
  have unaffected : ((service.cleanupStaleHosts now).1.map fun addr =>
      FailedNode.mk addr ((service.cleanupStaleHosts now).2.getHostPartitions addr)).filter
        (fun node => !node.partitionsAffected.isEmpty) = [] := by
    rw [filter_eq_nil_iff]
    intro node listed
    obtain ⟨addr, removed, rfl⟩ := mem_map.mp listed
    simp [getHostPartitions_removed removed]
  simp only [checkAndRecover, unaffected, flatMap_nil, isEmpty_nil, if_true]
  split_ifs <;> rfl

structure Recovered (removed : List HostAddr) (later : Nat) (before after : MetaService) : Prop where
  gone : ∀ spaceId partId hosts, after.getPartHosts spaceId partId = some hosts → ∀ addr ∈ removed, addr ∉ hosts
  replaced : ∀ spaceId partId hosts, before.getPartHosts spaceId partId = some hosts → (∃ addr ∈ removed, addr ∈ hosts) →
    ∃ hosts, after.getPartHosts spaceId partId = some hosts ∧ ∃ addr ∈ hosts, addr ∈ after.getActiveStorageHosts later
  distinct : ∀ spaceId partId hosts, after.getPartHosts spaceId partId = some hosts → hosts.Nodup

/-- Only what needs no reassignment is right afterwards. -/
theorem recovered_iff (service : MetaService) (config : FailureDetectorConfig) (now later : Nat) :
    Recovered (service.cleanupStaleHosts now).1 later service (service.checkAndRecover config now later).1 ↔
      ∀ spaceId partId hosts, service.getPartHosts spaceId partId = some hosts →
        (∀ addr ∈ (service.cleanupStaleHosts now).1, addr ∉ hosts) ∧ hosts.Nodup := by
  rw [checkAndRecover_service]
  constructor
  · intro recovered spaceId partId hosts allocated
    exact ⟨recovered.gone spaceId partId hosts allocated, recovered.distinct spaceId partId hosts allocated⟩
  · intro clean
    refine ⟨fun _ _ _ allocated => (clean _ _ _ allocated).1, ?_, fun _ _ _ allocated => (clean _ _ _ allocated).2⟩
    rintro spaceId partId hosts allocated ⟨addr, removed, listed⟩
    exact absurd listed ((clean _ _ _ allocated).1 addr removed)

def oneStale : MetaService where
  hostTimeout := 30
  storageHosts := [(("a", 9779), ⟨0, [(1, 1)]⟩), (("b", 9779), ⟨90, []⟩)]
  registered := by decide
  partAllocations := .ofList [(1, .ofList [(1, [("a", 9779)])])]

theorem not_recovered : (oneStale.cleanupStaleHosts 100).1 = [("a", 9779)] ∧
      (oneStale.cleanupStaleHosts 100).2.getActiveStorageHosts 100 = [("b", 9779)] ∧
    ¬ Recovered [("a", 9779)] 100 oneStale (oneStale.checkAndRecover ⟨1, true⟩ 100 100).1 := by
  refine ⟨by decide, by decide, fun recovered => ?_⟩
  have kept : (oneStale.checkAndRecover ⟨1, true⟩ 100 100).1.getPartHosts 1 1 = some [("a", 9779)] := by decide +kernel
  exact recovered.gone 1 1 _ kept _ (mem_singleton_self _) (mem_singleton_self _)

end MetaService

end ByoriDB.Meta
