/-!
# Types of messages (`PublishType`)

What a subject says of a message: the messages of a session, of subscriptions and
peers, those to the inbox of a peer, and the multicast ones.
-/

namespace Raims

inductive PublishType where
  | normal
  | sessionHello | sessionHb | sessionBye | sessionLink
  | peerAdd | peerDel | bloomFilter | adjacency
  | subJoin | subLeave | psubStart | psubStop
  | inboxAuth | inboxSubs | inboxPing | inboxPong | inboxRem | inboxResub | inboxRepsub
  | inboxAddRte | inboxSyncReq | inboxSyncRpy | inboxBloomReq | inboxBloomRpy
  | inboxAdjReq | inboxAdjRpy | inboxMeshReq | inboxMeshRpy | inboxUcastReq | inboxUcastRpy
  | inboxTrace | inboxAck | inboxSync | inboxLoss | inboxConsole | inboxAnyRte | inbox
  | mcastPing | mcastSync | mcastStatMon | mcast
  | mcastSubject | unknownSubject
deriving DecidableEq

/-- `is_u_inbox`: from `U_INBOX_AUTH` to `U_INBOX_CONSOLE`, and `U_INBOX_ANY_RTE`. -/
def PublishType.isInbox : PublishType → Bool
  | .inboxAuth | .inboxSubs | .inboxPing | .inboxPong | .inboxRem | .inboxResub | .inboxRepsub
  | .inboxAddRte | .inboxSyncReq | .inboxSyncRpy | .inboxBloomReq | .inboxBloomRpy
  | .inboxAdjReq | .inboxAdjRpy | .inboxMeshReq | .inboxMeshRpy | .inboxUcastReq | .inboxUcastRpy
  | .inboxTrace | .inboxAck | .inboxSync | .inboxLoss | .inboxConsole | .inboxAnyRte => true
  | _ => false

/-- The numbers of the enumeration: 13 to 15 are not used. -/
def PublishType.code (t : PublishType) : Nat :=
  if t.ctorIdx ≤ 12 then t.ctorIdx else t.ctorIdx + 3

/-- The type that has the number. -/
def PublishType.ofCode (n : Nat) : Option PublishType :=
  if n ≤ 12 then some (.ofNat n)
  else if 16 ≤ n ∧ n ≤ 46 then some (.ofNat (n - 3))
  else none

theorem PublishType.ofCode_code (t : PublishType) : ofCode t.code = some t := by
  cases t <;> rfl

end Raims
