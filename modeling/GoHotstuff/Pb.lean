import Mathlib.Data.List.AList
import GoHotstuff.Lib.Bytes

/-!
# Messages (`protos/hotstuff.proto`)

The message types, field by field.  The types directly in `GoHotstuff` are the ones the handlers work on, where a
pointer that has been checked against `nil`, or that the program itself has set, is not optional: a block in the
store has a `selfQc`, a proposal has a block, a vote has its certificate, a new-view message its `genericQc`.  The
types in `Pb` are what arrives on the wire, where any sub-message may be absent.

`int64` is `Int64`; a Go map is an association list with distinct keys, whose order stands for the unspecified order
of iteration.
-/

namespace GoHotstuff

open Lib (Bytes)

/-- Sign verify part cert info -/
structure PartCert where
  replicaId : Int64
  signature : Bytes
deriving DecidableEq

/-- The votes the leader gathered from the replicas, by replica id. -/
abbrev Signs := AList (fun _ : Int64 => PartCert)

/-- QuorumCert is a data type that combines a collection of signatures from replicas. -/
structure QuorumCert where
  viewNumber : Int64
  blockHash : Bytes
  signs : Signs

instance : DecidableEq QuorumCert := fun qc qc' =>
  decidable_of_iff (qc.viewNumber = qc'.viewNumber ∧ qc.blockHash = qc'.blockHash ∧ qc.signs.entries = qc'.signs.entries)
    (by
      obtain ⟨v, h, s⟩ := qc
      obtain ⟨v', h', s'⟩ := qc'
      simp only [QuorumCert.mk.injEq, AList.ext_iff])

/-- The zero value of the message, which stands for a certificate that is not filled in yet. -/
instance : Inhabited QuorumCert := ⟨⟨0, [], ∅⟩⟩

/-- The wrapper of block struct.  `justify` is absent in the genesis block only, unless a peer sends such a block. -/
structure Block where
  parentHash : Bytes
  cmds : Bytes
  proposer : Int64
  height : Int64
  timestamp : Int64
  justify : Option QuorumCert
  selfQc : QuorumCert
deriving DecidableEq

/-- broadcast proposal to other replicas -/
structure Proposal where
  viewNumber : Int64
  block : Block
deriving DecidableEq

/-- Vote messages -/
structure Vote where
  viewNumber : Int64
  voter : Int64
  blockHash : Bytes
  cert : PartCert
deriving DecidableEq

/-- new view msg -/
structure NewView where
  viewNumber : Int64
  genericQc : QuorumCert
deriving DecidableEq

/-- `ConfigMetadata`: number of nodes, fault tolerance, timeout of msg wait (seconds) -/
structure ConfigMetadata where
  n : Int64
  f : Int64
  msgWaitTimeout : Int64

namespace Pb

structure Block where
  parentHash : Bytes
  cmds : Bytes
  proposer : Int64
  height : Int64
  timestamp : Int64
  justify : Option QuorumCert
  selfQc : Option QuorumCert
deriving DecidableEq

structure NewView where
  viewNumber : Int64
  genericQc : Option QuorumCert

/-- Types of communication messages between replicas -/
inductive Message where
  | viewChange (data signature : Bytes)
  | proposal (viewNumber : Int64) (block : Option Block)
  | vote (viewNumber voter : Int64) (blockHash : Bytes) (cert : Option PartCert)
  | forward (data : Bytes)
  | unset
deriving DecidableEq

end Pb

/-- A block of the program as it is put on the wire. -/
def Block.toPb (b : Block) : Pb.Block :=
  ⟨b.parentHash, b.cmds, b.proposer, b.height, b.timestamp, b.justify, some b.selfQc⟩

def Vote.toPb (v : Vote) : Pb.Message := .vote v.viewNumber v.voter v.blockHash (some v.cert)

end GoHotstuff
