/-
# `Kerplace.Cluster.Gateways` — several gateways locking over the drive nodes

Gateways that share one node list, each taking the distributed lock as
`LockSet::acquire` does: the local lock first, then rounds of asking every
voter in turn, with what was granted given back after a round short of the
quorum.  An event is one step of one gateway, of the network or of time.

A lock request that fails, fails for the gateway: it goes on without the
answer.  The request itself may still reach its node later, once or never, so
it stays in `late` until it is delivered.  Drive requests travel the same way:
they are sent with the fencing headers of their moment and arrive at any later
one.
-/
import Kerplace.Cluster.LockTable
import Kerplace.Storage.Types

namespace Kerplace

/-! ## What `main.rs` sets up -/

/-- One `idx=addr` of the node list. -/
structure NodeEntry where
  idx : Nat
  addr : Str
  deriving DecidableEq

/-- The two settings of a gateway that matter here: the slot it hosts itself, and
whether it reaches drives over TLS. -/
structure Gateway where
  selfIndex : Option Nat
  tls : Bool

/-- A character that a header value may have: with another the request is never sent. -/
def headerChar (c : Char) : Bool := c = '\t' || decide (32 ≤ c.toNat) && c.toNat != 127

/-- A blank that the wire takes off the ends of a header value. -/
def headerBlank (c : Char) : Bool := c = ' ' || c = '\t'

/-- What `to_str` reads of a header value that was sent: nothing but printable ASCII. -/
def headerRead (s : Str) : Option Str :=
  let value := ((s.dropWhile headerBlank).reverse.dropWhile headerBlank).reverse
  if value.all fun c => headerChar c && decide (c.toNat < 127) then some value else none

/-- The shared node list, by index, and each gateway's settings. -/
structure Deployment (G : Type) where
  entries : List NodeEntry
  gateway : G → Gateway

/-- `addr.starts_with("http")`. -/
def hasScheme (addr : Str) : Bool := "http".toList.isPrefixOf addr

/-- The base of a node's `LockClient`: where its lock table is reached. -/
def lockBase (addr : Str) : Str :=
  if hasScheme addr then addr else "http://".toList ++ addr

/-- The base of a node's `RemoteDrive`. -/
def driveBase (tls : Bool) (addr : Str) : Str :=
  if hasScheme addr then addr
  else (if tls then "https" else "http").toList ++ "://".toList ++ addr

namespace Deployment

variable {G : Type} (D : Deployment G)

/-- `lock_nodes`: every node but the gateway's own. -/
def voters (g : G) : List Str :=
  (D.entries.filter fun e => some e.idx ≠ (D.gateway g).selfIndex).map fun e =>
    lockBase e.addr

/-- `DistLock::new`: the quorum. -/
def quorum (g : G) : Nat := (D.voters g).length / 2 + 1

/-- Every two quorums of two gateways have a node in common. -/
def Overlapping : Prop :=
  ∀ g h, g ≠ h → ((D.voters g ++ D.voters h).dedup).length < D.quorum g + D.quorum h

end Deployment

/-! ## The state -/

/-- The tokens of a guard, by node. -/
abbrev Tokens := Std.ExtTreeMap Str Nat

/-- Where a call of `LockSet::acquire`, or the guard it returned, has got to. -/
inductive Phase where
  /-- In `DistLock::acquire`, with these voters still to ask this round. -/
  | asking (round : Nat) (todo : List Str)
  /-- After a round short of the quorum, with these voters still to be released. -/
  | dropping (round : Nat) (todo : List Str)
  /-- The guard is held, under a quorum. -/
  | held
  /-- The guard is held under the local lock only. -/
  | alone
  /-- The guard was dropped; these voters are still to be released. -/
  | releasing (todo : List Str)
  deriving DecidableEq

/-- A call of `LockSet::acquire` and its guard.  `tokens` are those of the round, and
once the guard is held those of its fencing context. -/
structure Attempt (G : Type) where
  gateway : G
  resource : Str
  owner : Uuid
  tokens : Tokens
  phase : Phase

/-- Whether an attempt has the gateway's local lock on its resource. -/
def Phase.holdsLocal : Phase → Bool
  | .releasing _ => false
  | _ => true

/-- A mutating drive request, with its fencing headers. -/
structure DriveRequest where
  attempt : Nat
  host : Str
  fence : Option (Str × Nat)

/-- Gateways, nodes and network.  A node is named by the base its lock table is
reached at. -/
structure Sys (G : Type) where
  now : Instant
  tables : Str → LockTable
  attempts : List (Attempt G)
  late : List (Str × LockTable.Call)
  sent : List DriveRequest

/-- Whether the caller of a request gets its answer. -/
inductive Rpc where
  | answered
  | failed

/-- One step of a gateway, of the network or of time. -/
inductive Event (G : Type) where
  | lock (g : G) (resource : Str) (owner : Uuid)
  | ask (a : Nat) (rpc : Rpc)
  | conclude (a : Nat)
  | free (a : Nat) (rpc : Rpc)
  | again (a : Nat)
  | drop (a : Nat)
  | deliver (i : Nat)
  | send (a : Nat) (entry : NodeEntry)
  | arrive (i : Nat)
  | pass (d : Duration)

/-- What a step makes known. -/
inductive Outcome where
  | silent
  | guarded (a : Nat)
  | granted (host resource owner : Str)
  | verdict (a : Nat) (host : Str) (accepted : Bool)
  deriving DecidableEq

namespace Sys

variable {G : Type}

/-- A lock request carried out on a node. -/
def exec (s : Sys G) (host : Str) (c : LockTable.Call) : LockTable.Answer × Sys G :=
  let r := LockTable.machine.step ⟨s.now, s.tables host⟩ c
  (r.1, { s with tables := Function.update s.tables host r.2.table })

/-- What a lock request's answer makes known. -/
def outcomeOf (host : Str) : LockTable.Call → LockTable.Answer → Outcome
  | .acquire resource owner _, .token (some _) => .granted host resource owner
  | _, _ => .silent

/-- An attempt moves on. -/
def put (s : Sys G) (a : Nat) (x : Attempt G) : Sys G :=
  { s with attempts := s.attempts.set a x }

/-- `LockClient::try_acquire`, and the loop around it. -/
def ask (s : Sys G) (a : Nat) (x : Attempt G) (round : Nat) (host : Str) (todo : List Str) :
    Rpc → Outcome × Sys G
  | .failed =>
      (.silent, { s.put a { x with phase := .asking round todo } with
        late := s.late ++ [(host, .acquire x.resource x.owner.text LOCK_TTL)] })
  | .answered =>
      let c := LockTable.Call.acquire x.resource x.owner.text LOCK_TTL
      let r := s.exec host c
      match r.1 with
      | .token (some t) =>
          (outcomeOf host c r.1, r.2.put a
            { x with tokens := x.tokens.insert host t, phase := .asking round todo })
      | _ => (.silent, r.2.put a { x with phase := .asking round todo })

/-- `LockClient::release`, in the loop that leaves `phase`. -/
def free (s : Sys G) (a : Nat) (x : Attempt G) (host : Str) (phase : Phase) :
    Rpc → Outcome × Sys G
  | .failed =>
      (.silent, { s.put a { x with phase := phase } with
        late := s.late ++ [(host, .release x.resource x.owner.text)] })
  | .answered =>
      (.silent, (s.exec host (.release x.resource x.owner.text)).2.put a
        { x with phase := phase })

variable [DecidableEq G] (D : Deployment G)

/-- One step.  An event that does not apply changes nothing; a fresh owner id is one
no attempt has. -/
def step (s : Sys G) : Event G → Outcome × Sys G
  | .lock g resource owner =>
      if s.attempts.any fun x => decide (x.owner = owner) ||
          (decide (x.gateway = g) && decide (x.resource = resource) && x.phase.holdsLocal) then
        (.silent, s)
      else
        let phase := if D.voters g = [] then .alone else .asking 0 (D.voters g)
        (.silent, { s with attempts := s.attempts ++ [⟨g, resource, owner, ∅, phase⟩] })
  | .ask a rpc =>
      match s.attempts[a]? with
      | some x =>
          match x.phase with
          | .asking round (host :: todo) => s.ask a x round host todo rpc
          | _ => (.silent, s)
      | none => (.silent, s)
  | .conclude a =>
      match s.attempts[a]? with
      | some x =>
          match x.phase with
          | .asking round [] =>
              if x.tokens.size ≥ D.quorum x.gateway then
                (.guarded a, s.put a { x with phase := .held })
              else
                (.silent, s.put a { x with phase := .dropping round (D.voters x.gateway) })
          | _ => (.silent, s)
      | none => (.silent, s)
  | .free a rpc =>
      match s.attempts[a]? with
      | some x =>
          match x.phase with
          | .dropping round (host :: todo) => s.free a x host (.dropping round todo) rpc
          | .releasing (host :: todo) => s.free a x host (.releasing todo) rpc
          | _ => (.silent, s)
      | none => (.silent, s)
  | .again a =>
      match s.attempts[a]? with
      | some x =>
          match x.phase with
          | .dropping round [] =>
              if round + 1 < 60 then
                (.silent, s.put a
                  { x with tokens := ∅, phase := .asking (round + 1) (D.voters x.gateway) })
              else (.silent, s.put a { x with phase := .alone })
          | _ => (.silent, s)
      | none => (.silent, s)
  | .drop a =>
      match s.attempts[a]? with
      | some x =>
          match x.phase with
          | .held => (.silent, s.put a { x with phase := .releasing (D.voters x.gateway) })
          | .alone => (.silent, s.put a { x with phase := .releasing [] })
          | _ => (.silent, s)
      | none => (.silent, s)
  | .deliver i =>
      match s.late[i]? with
      | some (host, c) =>
          let r := s.exec host c
          (outcomeOf host c r.1, { r.2 with late := s.late.eraseIdx i })
      | none => (.silent, s)
  | .send a e =>
      match s.attempts[a]? with
      | some x =>
          if x.phase = .held ∧ e ∈ D.entries ∧ some e.idx ≠ (D.gateway x.gateway).selfIndex then
            let fence := x.tokens[driveBase (D.gateway x.gateway).tls e.addr]?.map fun t =>
              (x.resource, t)
            if fence.all fun f => f.1.all headerChar then
              (.silent, { s with sent := s.sent ++ [⟨a, lockBase e.addr, fence⟩] })
            else (.silent, s)
          else (.silent, s)
      | none => (.silent, s)
  | .arrive i =>
      match s.sent[i]? with
      | some q =>
          -- `fenced_out`: a request without the headers is not checked, nor is one whose
          -- resource `to_str` does not read
          let accepted := match q.fence with
            | some (resource, token) =>
                match headerRead resource with
                | some resource => (s.tables q.host).fenceOk resource token
                | none => true
            | none => true
          (.verdict q.attempt q.host accepted, { s with sent := s.sent.eraseIdx i })
      | none => (.silent, s)
  | .pass d => (.silent, { s with now := s.now + d })

/-- The gateways and nodes as a machine. -/
def machine : Machine (Sys G) (Event G) Outcome := ⟨step D⟩

/-- Nothing locked, nothing under way. -/
def init (now : Instant) : Sys G := ⟨now, fun _ => ∅, [], [], []⟩

end Sys

end Kerplace
