import GoHotstuff.BlockStore
import GoHotstuff.LruHistory

/-!
# The latest blocks of a chain

The block store is an LRU cache, so how long a block stays depends on what is looked up.  A replica that follows one chain
asks for the latest few blocks only.  Then the keys used since the last use of one of these are themselves keys of late
blocks, and the next block that is stored evicts none of them, however long the chain gets (`RecentCache.put`).

The chain is the one that the commands `cmd 0`, `cmd 1`, … make when each leader proposes on the block before: the hash of
a block covers its parent's hash, its height and its command, so the hashes are known beforehand (`chainHash`), whoever
makes the blocks and whatever votes their certificates collect.
-/

namespace GoHotstuff

open Lib (Bytes encodeToString ByRecency Windowed distinctSince)

/-! ### The order of use -/

namespace Cache

variable {κ ν : Type} [DecidableEq κ] {cap : Int}

/-- The keys, most recently used first. -/
def byUse (c : Cache κ ν cap) : List κ := c.val.entries.map fun p => p.1

private theorem byRecency_touch {c : Cache κ ν cap} {ts : List κ} (h : ByRecency ts c.byUse) {key : κ} {v : ν}
    (hf : c.find? key = some v) : ByRecency (ts ++ [key]) (c.touch key).byUse := by
  show ByRecency (ts ++ [key]) ((c.val.get key).2.entries.map fun p => p.1)
  rw [LRUCache.entries_get c.wf hf, Lib.map_fst_use]
  exact h.use key

private theorem touch_of_none {c : Cache κ ν cap} {key : κ} (hf : c.find? key = none) :
    (c.touch key).byUse = c.byUse := by
  show (c.val.get key).2.entries.map (fun p => p.1) = c.val.entries.map fun p => p.1
  unfold LRUCache.get
  rw [LRUCache.lookup_eq_none c.wf hf]

private theorem byRecency_put {c : Cache κ ν cap} {ts : List κ} (h : ByRecency ts c.byUse) (key : κ) (v : ν) :
    ByRecency (ts ++ [key]) (c.put key v).byUse := by
  have huse : ByRecency (ts ++ [key]) ((Lib.use c.val.entries key v).map fun p => p.1) := by
    rw [Lib.map_fst_use]
    exact h.use key
  show ByRecency (ts ++ [key]) ((c.val.put key v).entries.map fun p => p.1)
  rw [LRUCache.entries_put c.wf]
  split
  · rw [List.map_dropLast]
    exact huse.sublist (List.dropLast_sublist _)
  · exact huse

private theorem byUse_mapValue (c : Cache κ ν cap) (f : ν → ν) : (c.mapValue f).byUse = c.byUse := by
  simp [byUse, mapValue, LRUCache.mapValue, LRUCache.entries]

/-- A key is not evicted while few others have been used since. -/
private theorem not_evicts_of_distinctSince {c : Cache κ ν cap} {ts : List κ} (h : ByRecency ts c.byUse) {key k : κ}
    (hlt : (distinctSince k ts : Int) + 1 < cap) : ¬ c.Evicts key k := by
  rintro ⟨-, hfull, hlast⟩
  obtain ⟨x, hx, rfl⟩ := Option.map_eq_some_iff.1 hlast
  obtain ⟨l, hl⟩ := List.getLast?_eq_some_iff.1 hx
  have hkeys : c.byUse = (l.map fun y => y.2.key) ++ [x.2.key] := by
    unfold byUse LRUCache.entries
    rw [hl, List.map_map, List.map_append]
    rfl
  rw [hkeys] at h
  have hle := h.length_le
  rw [List.length_map] at hle
  rw [hl, List.length_append, List.length_singleton, c.capacity_eq] at hfull
  omega

end Cache

/-! ### The chain that commands make -/

/-- The hash of the `k`-th block when the `j`-th one carries the command `cmd (j - 1)`. -/
def chainHash (cmd : Nat → Bytes) : Nat → Bytes
  | 0 => genesisHash
  | k + 1 => getBlockHash ⟨chainHash cmd k, cmd k, 0, Int64.ofNat (k + 1), 0, none, default⟩

/-- `b` is the `k`-th block: it carries its command and a certificate for the block before.  The certificate of the genesis
block is the one that no replica has signed. -/
structure IsBlock (replicas : ReplicaConf) (cmd : Nat → Bytes) (k : Nat) (b : Block) : Prop where
  height : b.height = Int64.ofNat k
  self : b.selfQc.blockHash = chainHash cmd k
  view : b.selfQc.viewNumber = Int64.ofNat k - 1
  root : k = 0 → b.body = genesis.body
  parent : ∀ j, k = j + 1 → b.parentHash = chainHash cmd j
  cmds : ∀ j, k = j + 1 → b.cmds = cmd j
  justify : ∀ j, k = j + 1 → ∃ qc, b.justify = some qc ∧ qc.blockHash = chainHash cmd j ∧
    (j ≠ 0 → replicas.verifyQuorumCert qc = true)

section IsBlock

variable {replicas : ReplicaConf} {cmd : Nat → Bytes} {k : Nat} {b b' : Block}

theorem isBlock_genesis : IsBlock replicas cmd 0 genesis where
  height := rfl
  self := rfl
  view := rfl
  root _ := rfl
  parent j h := absurd h.symm (Nat.succ_ne_zero j)
  cmds j h := absurd h.symm (Nat.succ_ne_zero j)
  justify j h := absurd h.symm (Nat.succ_ne_zero j)

/-- Votes do not matter. -/
theorem IsBlock.of_body (h : IsBlock replicas cmd k b) (hb : b'.body = b.body) : IsBlock replicas cmd k b' where
  height := (height_body hb).trans h.height
  self := (body_selfQc_blockHash hb).trans h.self
  view := (body_selfQc_viewNumber hb).trans h.view
  root hk := hb.trans (h.root hk)
  parent j hj := (parentHash_body hb).trans (h.parent j hj)
  cmds j hj := (congrArg Block.cmds hb).trans (h.cmds j hj)
  justify j hj := by
    rw [justify_body hb]
    exact h.justify j hj

theorem IsBlock.getBlockHash_eq (h : IsBlock replicas cmd k b) : getBlockHash b = chainHash cmd k := by
  cases k with
  | zero =>
    have hroot : getBlockHash b = getBlockHash genesis := getBlockHash_body (h.root rfl)
    exact hroot
  | succ k =>
    unfold getBlockHash chainHash getBlockHash hashInput
    rw [h.parent k rfl, h.cmds k rfl, h.height]

end IsBlock

/-! ### The latest blocks in the cache -/

/-- The key under which the `k`-th block is stored. -/
def chainKey (cmd : Nat → Bytes) (k : Nat) : List Char := encodeToString (chainHash cmd k)

/-- The cache has been used for a chain of `m` blocks as a replica uses it that asks for the last five only. -/
def RecentCache (cmd : Nat → Bytes) (m : Nat) (c : Cache (List Char) Stored 30) : Prop :=
  ∃ ts, ByRecency ts c.byUse ∧ Windowed (chainKey cmd) 4 m ts

section RecentCache

variable {cmd : Nat → Bytes} {m : Nat} {c : Cache (List Char) Stored 30}

theorem RecentCache.touch (h : RecentCache cmd m c) {k : Nat} (hk : k ≤ m) (hm : m ≤ k + 4) :
    RecentCache cmd m (c.touch (chainKey cmd k)) := by
  obtain ⟨ts, hts, hw⟩ := h
  cases hf : c.find? (chainKey cmd k) with
  | none =>
    refine ⟨ts, ?_, hw⟩
    rw [Cache.touch_of_none hf]
    exact hts
  | some o => exact ⟨ts ++ [chainKey cmd k], Cache.byRecency_touch hts hf, hw.use hk hm⟩

theorem RecentCache.mapValue (h : RecentCache cmd m c) (f : Stored → Stored) : RecentCache cmd m (c.mapValue f) := by
  obtain ⟨ts, hts, hw⟩ := h
  refine ⟨ts, ?_, hw⟩
  rw [Cache.byUse_mapValue]
  exact hts

/-- The next block is stored: it is there, and so are the last five before it. -/
theorem RecentCache.put (h : RecentCache cmd m c) (o : Stored) : RecentCache cmd (m + 1) (c.put (chainKey cmd (m + 1)) o) ∧
    ∀ k ≤ m, m ≤ k + 4 → chainKey cmd k ≠ chainKey cmd (m + 1) →
      (c.put (chainKey cmd (m + 1)) o).find? (chainKey cmd k) = c.find? (chainKey cmd k) := by
  obtain ⟨ts, hts, hw⟩ := h
  refine ⟨⟨_, Cache.byRecency_put hts _ o, hw.next⟩, fun k hk hm hne => ?_⟩
  have hle := hw.distinctSince_le hk hm
  exact Cache.find?_put_of_not_evicts hne (Cache.not_evicts_of_distinctSince hts (by omega))

theorem recentCache_newHotStuffCore : RecentCache cmd 0 newHotStuffCore.blockCache := by
  have hempty : ByRecency [] (Cache.new 30 : Cache (List Char) Stored 30).byUse := List.Pairwise.nil
  refine ⟨[] ++ [chainKey cmd 0], Cache.byRecency_put hempty _ _, ?_⟩
  intro j hj _ x hx
  obtain rfl : j = 0 := by omega
  rw [Lib.since_append_self] at hx
  cases hx

end RecentCache

end GoHotstuff
