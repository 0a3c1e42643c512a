import Roam.EpochAgreement
import Roam.LivePush
import Roam.ReadGate
import Roam.Reconcile

namespace Roam
set_option autoImplicit true
open Library Library.Fallible

/-- What else happens while a pass waits: the engine rotates the epoch or takes in a key log, and
the server and the surroundings change as they like. -/
inductive Interference
  | rotate (seed : Store.RotationSeed) (paperPublic : Option Bytes32)
  | importKeylog (author : UInt64) (authorKey : Bytes32) (bytes : Bytes)
  | server (remote : Remote)
  | surroundings (ambient : Ambient)

abbrev History := List Issue × Option Keychain

abbrev Account := History × Std.TreeMap UInt64 Bytes

namespace Session
variable {π : BackendPlatform}

def disturb (key : VaultKey) (s : Session π) : Interference → Session π
  | .rotate seed paperPublic =>
    { s with store := (exec
        (Store.rotateEpoch seed (key.idKey π) (key.epoch0Key π) paperPublic) s.store).2 }
  | .importKeylog author authorKey bytes =>
    { s with store := (exec (Store.importKeylog author authorKey bytes) s.store).2 }
  | .server remote => { s with remote }
  | .surroundings ambient => { s with ambient }

def begin (s : Session π) : Session π := { s with issued := [], seen := none }

def history (s : Session π) : History := (s.issued, s.seen)

/-- The history with the op logs, from which a pass takes what it uploads. -/
def account (s : Session π) : Account := (s.history, s.store.disk.ops)

end Session

namespace Issue

/-- The payload is sealed under the head of the key chain that the pass took, with its key. -/
def Seen (i : Issue) : Prop :=
  ∃ kc, i.seen = some kc ∧ kc.head = i.payload.epoch ∧
    kc.epochKey i.payload.epoch = some i.payload.key

/-- The server keeps what it has, and has the payload if it answers and had nothing. -/
structure Stored (c : Crypto) (i : Issue) : Prop where
  of_answered : i.answered = true → i.after = some (i.before.getD (i.payload.bytes c))
  of_after : i.before = none → ∀ ct, i.after = some ct → ct = i.payload.bytes c

/-- The plaintext is a line of one of the logs or a blob, and the id is its id. -/
def Names (π : BackendPlatform) (key : VaultKey) (logs : Std.TreeMap UInt64 Bytes) (id : String)
    (plaintext : Bytes) : SetKind → Prop
  | .entries => ∃ author, plaintext ∈ splitLogLines (logs[author]?.getD []) ∧
    key.entryIdContent π author plaintext = id
  | .blobs => key.blobId π (blobHash π.toPlatform plaintext) = id
  | _ => False

structure Sound (π : BackendPlatform) (key : VaultKey) (logs : Std.TreeMap UInt64 Bytes)
    (i : Issue) : Prop where
  seen : i.Seen
  stored : i.Stored π.crypto
  names : Names π key logs i.id i.payload.plaintext i.kind

end Issue

section OpLogs
variable {π : Platform} {s s' : Store π}

def Store.SameOpLogs (s s' : Store π) : Prop := s'.disk.ops = s.disk.ops

instance : IsPreorder (Store π) Store.SameOpLogs where
  refl _ := rfl
  trans _ _ _ h h' := h'.trans h

theorem TrustBundle.importKeylogs_ops {π : BackendPlatform} (known : List PeerRecord)
    (logs : List SignedLog) (s : Store π.toPlatform) :
    (importKeylogs known logs s).disk.ops = s.disk.ops := by
  induction logs generalizing s with
  | nil => rfl
  | cons log logs ih =>
    refine (ih _).trans ?_
    dsimp only
    split
    next => rfl
    next =>
      split
      next => rfl
      next p _ =>
        split
        next =>
          split
          next => rfl
          next bytes _ =>
            exact (Store.syncCall_sameData (.importKeylog log.peer p.verifyingKey bytes) s).ops
        next => rfl

theorem TrustBundle.apply_leaves {π : BackendPlatform} (order : RosterOrder)
    (bundle : TrustBundle) :
    Leaves Store.SameOpLogs (bundle.apply order : StoreM π.toPlatform Unit) := by
  have hlogs : Leaves Store.SameOpLogs (modify fun s => importKeylogs s.peers bundle.keylogs s :
      StoreM π.toPlatform Unit) :=
    .modify fun s => importKeylogs_ops s.peers bundle.keylogs s
  rw [TrustBundle.apply]
  split
  next => exact .pure ()
  next =>
    dsimp only
    split
    next =>
      have hrosters (logs : List (UInt64 × Bytes)) : Leaves Store.SameOpLogs
          (Store.importRosterBundle order logs : StoreM π.toPlatform Unit) :=
        ⟨fun s => (Store.syncCall_sameData (.importBundle order logs) s).ops⟩
      exact (hrosters _).bind fun _ => hlogs
    next => exact hlogs

theorem Store.verifyAndAdoptSnapshot_leaves {π : SyncPlatform} (io : Io) (kc : Keychain)
    (authorKeys : Std.TreeMap UInt64 Bytes32) (id : String) (framed : Bytes) (files : SyncFiles) :
    Leaves Store.SameOpLogs (Store.verifyAndAdoptSnapshot (π := π) io kc authorKeys id framed
      files) := by
  rw [Store.verifyAndAdoptSnapshot]
  split
  next => exact .pure _
  next plaintext subsumed _ =>
    have hadopt : Leaves Store.SameOpLogs
        (Store.adoptSnapshot io plaintext : StoreM π.toPlatform Unit) :=
      ⟨fun s => (Store.adoptSnapshot_outcome io plaintext s).ops⟩
    exact hadopt.bind fun _ => (Leaves.ofResult _).bind fun _ => .pure _

end OpLogs

namespace Pass
variable {π : BackendPlatform} {key : VaultKey}

def Quiet (view : Session π → τ) (p : Pass π α) : Prop := p.run.Spares view

section Quiet
variable {view : Session π → τ}

theorem Quiet.history {p : Pass π α} (h : Quiet Session.account p) : Quiet Session.history p :=
  Task.Spares.comp Prod.fst h

theorem Quiet.bind {p : Pass π α} {f : α → Pass π β} (hp : Quiet view p)
    (hf : ∀ a, Quiet view (f a)) : Quiet view (p >>= f) := by
  apply Task.Spares.bind hp
  intro r
  cases r with
  | ok a => exact hf a
  | error e => trivial

theorem quiet_pure (a : α) : Quiet view (pure a : Pass π α) := trivial

theorem quiet_locked {f : Session π → Except PassError α × Session π}
    (h : ∀ s, view (f s).2 = view s) : Quiet view (locked f) :=
  Task.Spares.atomic h

theorem Quiet.attempt {p : Pass π α} (hp : Quiet view p) : Quiet view (attempt p) :=
  Task.Spares.bind hp fun _ => trivial

theorem quiet_forM {f : α → Pass π Unit} (hf : ∀ a, Quiet view (f a)) (as : List α) :
    Quiet view (as.forM f) := by
  induction as with
  | nil => exact quiet_pure ()
  | cons a as ih => exact (hf a).bind fun _ => ih

theorem quiet_foldlM {f : β → α → Pass π β} (hf : ∀ b a, Quiet view (f b a)) (as : List α)
    (b : β) : Quiet view (as.foldlM f b) := by
  induction as generalizing b with
  | nil => exact quiet_pure b
  | cons a as ih => exact (hf b a).bind fun b' => ih b'

theorem quiet_mapM {f : α → Pass π β} (hf : ∀ a, Quiet view (f a)) (as : List α) :
    Quiet view (as.mapM f) := by
  have hloop (done : List β) : Quiet view (List.mapM.loop f as done) := by
    induction as generalizing done with
    | nil => exact quiet_pure _
    | cons a as ih => exact (hf a).bind fun b => ih (b :: done)
  exact hloop []

theorem quiet_read {f : Session π → α} : Quiet view (read f) := quiet_locked fun _ => rfl

theorem quiet_readOk {f : Session π → Except StorageError α} : Quiet view (readOk f) :=
  quiet_locked fun _ => rfl

end Quiet

section BeforeUploads

theorem account_answer (s : Session π) (f : Remote → α × Remote) :
    (answer s f).2.account = s.account := by
  rw [answer]
  split
  next => rfl
  next => rfl
  next => rfl

theorem quiet_request {f : Remote → α × Remote} : Quiet Session.account (request f : Pass π α) :=
  quiet_locked fun s => account_answer s f

theorem quiet_onStore {op : Ambient → StoreM π.toPlatform α}
    (h : ∀ a, Leaves Store.SameOpLogs (op a)) : Quiet Session.account (onStore op) :=
  quiet_locked fun s => congrArg (Prod.mk s.history) ((h s.ambient).holds s.store)

theorem quiet_fetchTrust (applied : Bool) (id : String) :
    Quiet Session.account (fetchTrust key applied id : Pass π Bool) := by
  apply quiet_request.bind
  intro ct
  cases ct with
  | none => exact quiet_pure applied
  | some ct =>
    dsimp only
    split
    next => exact quiet_pure applied
    next bundle _ =>
      exact (quiet_onStore fun a => bundle.apply_leaves a.order).bind fun _ => quiet_pure true

theorem quiet_reconcileTrust : Quiet Session.account (reconcileTrust key : Pass π Bool) := by
  apply quiet_read.bind
  intro bundle
  apply quiet_request.bind
  rintro ⟨have_, need⟩
  have hrest : Quiet Session.account (do
      let applied ← need.foldlM (fetchTrust key) false
      if applied then
        let _ ← attempt
          (onStore fun a => Store.backfillWraps a.wraps (key.idKey π) (key.epoch0Key π))
        pure true
      else pure false : Pass π Bool) := by
    apply (quiet_foldlM quiet_fetchTrust need false).bind
    intro applied
    split
    next =>
      have hback := quiet_onStore (π := π) fun a => Store.backfillWrapsIo_leaves
        (R := Store.SameOpLogs) (fun _ _ => rfl) (fun _ => .done) a.wraps (key.idKey π)
          (key.epoch0Key π)
      exact hback.attempt.bind fun _ => quiet_pure true
    next => exact quiet_pure false
  dsimp only
  split
  next => exact (quiet_locked fun s => account_answer s _).bind fun _ => hrest
  next => exact hrest

theorem quiet_adopt {id : String} :
    Quiet Session.account (adopt kc authorKeys id framed : Pass π AdoptOutcome) := by
  apply quiet_locked
  intro s
  have hsame := (Store.verifyAndAdoptSnapshot_leaves (s.ambient.io 0) kc authorKeys id framed
    s.files).holds s.store
  dsimp only
  split
  next => exact congrArg (Prod.mk s.history) hsame
  next => exact congrArg (Prod.mk s.history) hsame

theorem quiet_importNeededSnapshots :
    Quiet Session.account (importNeededSnapshots kc : Pass π Nat) := by
  apply quiet_readOk.bind
  intro held
  apply quiet_request.bind
  rintro ⟨_, need⟩
  dsimp only
  split
  next => exact quiet_pure 0
  next =>
    apply quiet_read.bind
    intro authorKeys
    apply quiet_foldlM
    intro undecryptable id
    apply quiet_request.bind
    intro framed
    cases framed with
    | none => exact quiet_pure _
    | some framed =>
      apply quiet_adopt.bind
      intro outcome
      cases outcome with
      | undecryptable => exact quiet_pure _
      | adopted _ _ => exact quiet_pure _
      | rejected _ => exact quiet_pure _

theorem account_disturb (s : Session π) (d : Interference) :
    (s.disturb key d).account = s.account := by
  cases d with
  | rotate seed paperPublic =>
    exact congrArg (Prod.mk s.history) ((Store.rotateEpoch_leaves (R := Store.SameOpLogs)
      (fun _ _ => rfl) seed (key.idKey π) (key.epoch0Key π) paperPublic).holds s.store)
  | importKeylog author authorKey bytes =>
    exact congrArg (Prod.mk s.history)
      (Store.syncCall_sameData (.importKeylog author authorKey bytes) s.store).ops
  | server remote => rfl
  | surroundings ambient => rfl

end BeforeUploads

section AfterUploads

theorem quiet_markPoisoned {id : String} : Quiet Session.history (markPoisoned id : Pass π Unit) :=
  quiet_locked fun _ => rfl

theorem quiet_fetchBlob (undecryptable : Nat) (id : String) :
    Quiet Session.history (fetchBlob key kc undecryptable id : Pass π Nat) := by
  apply quiet_request.history.bind
  intro ct
  cases ct with
  | none => exact quiet_pure _
  | some ct =>
    dsimp only
    split
    next => exact quiet_pure _
    next =>
      split
      next => exact quiet_markPoisoned.bind fun _ => quiet_pure _
      next => exact (quiet_locked fun _ => rfl).bind fun _ => quiet_pure _

theorem quiet_sortEntry (acc : Fetched) (item : String × Except PassError (Option Bytes)) :
    Quiet Session.history (sortEntry key kc peers acc item : Pass π Fetched) := by
  have hfetched : Quiet Session.history (ExceptT.mk (.done item.2) : Pass π (Option Bytes)) :=
    trivial
  apply hfetched.bind
  intro ct
  cases ct with
  | none => exact quiet_pure _
  | some ct =>
    dsimp only
    split
    next => exact quiet_pure _
    next =>
      split
      next => exact quiet_pure _
      next =>
        split
        next => exact quiet_markPoisoned.bind fun _ => quiet_pure _
        next =>
          split
          next => exact quiet_pure _
          next => exact quiet_pure _

theorem quiet_importLines :
    Quiet Session.history (importLines author vkey lines : Pass π Unit) := by
  apply quiet_locked
  intro s
  dsimp only
  split
  next => rfl
  next => rfl

theorem quiet_importNeededEntries :
    Quiet Session.history (importNeededEntries key kc need poisoned : Pass π Nat) := by
  apply quiet_read.bind
  intro peers
  apply (quiet_mapM (fun id => quiet_request.history.attempt.bind fun _ => quiet_pure _) _).bind
  intro fetched
  apply (quiet_foldlM quiet_sortEntry fetched _).bind
  intro sorted
  apply (quiet_forM _ _).bind fun _ => quiet_pure _
  rintro ⟨author, lines⟩
  dsimp only
  split
  next => exact quiet_pure ()
  next => exact quiet_importLines

theorem quiet_pull : Quiet Session.history (pull key kc needEntries needBlobs : Pass π Nat) := by
  apply quiet_read.bind
  intro poisoned
  apply (quiet_foldlM quiet_fetchBlob _ 0).bind
  intro undecryptable
  split
  next => exact quiet_pure _
  next => exact quiet_importNeededEntries.bind fun _ => quiet_pure _

theorem quiet_writeAndProduce :
    Quiet Session.history (writeAndProduce key : Pass π (Option (String × Bytes))) := by
  apply quiet_locked
  intro s
  dsimp only
  split
  next => rfl
  next => rfl

theorem quiet_maybeProduceSnapshot :
    Quiet Session.history (maybeProduceSnapshot key : Pass π Unit) := by
  apply quiet_request.history.bind
  intro wanted
  split
  next =>
    apply quiet_read.bind
    intro role
    split
    next =>
      apply quiet_writeAndProduce.bind
      intro produced
      cases produced with
      | none => exact quiet_pure ()
      | some object => exact quiet_request.history
    next => exact quiet_pure ()
  next => exact quiet_pure ()

end AfterUploads

/-- From an account with `P`, every section of the pass leaves one with `I`, and the pass leaves one
with `P'` unless it fails. -/
def Safe (I P : Account → Prop) (p : Pass π α) (P' : α → Account → Prop) : Prop :=
  Task.Triple Session.account I P p fun r v => ∀ a, r = .ok a → P' a v

section Safe
variable {I P : Account → Prop} {P' : α → Account → Prop} {P'' : β → Account → Prop}

theorem Safe.bind {p : Pass π α} {f : α → Pass π β} (hp : Safe I P p P')
    (hf : ∀ a, Safe I (P' a) (f a) P'') : Safe I P (p >>= f) P'' := by
  apply Task.Triple.bind hp
  · exact fun a s hs => hf a s (hs a rfl)
  · exact fun _ _ _ => by rintro _ ⟨⟩

theorem Safe.weaken {p : Pass π α} (hp : Safe I P p P') (h : ∀ v, Q v → P v) : Safe I Q p P' :=
  fun s hs => hp s (h _ hs)

theorem Quiet.still {p : Pass π α} (hp : Quiet Session.account p) (hI : ∀ v, P v → I v) :
    Safe I P p fun _ => P :=
  fun _ hs => (Task.Spares.keeps hp (fun _ _ h => h) (fun s h => hI s.account h) hs).mono
    fun _ _ h _ _ => h

theorem Quiet.safe {P : History → Prop} {p : Pass π α}
    (hp : Quiet Session.history p) (hI : ∀ v, P v.1 → I v) :
    Safe I (fun v => P v.1) p fun _ v => P v.1 :=
  fun _ hs => (Task.Spares.keeps hp (fun _ _ h => congrArg Prod.fst h)
    (fun s h => hI s.account h) hs).mono fun _ _ h _ _ => h

theorem safe_locked {f : Session π → Except PassError α × Session π}
    (h : ∀ s, P s.account → I (f s).2.account ∧ ∀ a, (f s).1 = .ok a → P' a (f s).2.account) :
    Safe I P (locked f) P' :=
  Task.triple_atomic h

theorem safe_forM {f : α → Pass π Unit} {as : List α}
    (hf : ∀ a ∈ as, Safe I P (f a) fun _ => P) : Safe I P (as.forM f) fun _ => P := by
  induction as with
  | nil => exact fun _ hs _ _ => hs
  | cons a as ih =>
    rw [List.forall_mem_cons] at hf
    exact hf.1.bind fun _ => ih hf.2

theorem Safe.of_pure {φ : Prop} {p : Pass π α} (h : φ → Safe I P p P') :
    Safe I (fun v => P v ∧ φ) p P' :=
  fun s hs => h hs.2 s hs.1

end Safe

section Uploads
variable {logs : Std.TreeMap UInt64 Bytes}

def AllSound (π : BackendPlatform) (key : VaultKey) (logs : Std.TreeMap UInt64 Bytes)
    (history : History) : Prop :=
  ∀ i ∈ history.1, i.Sound π key logs

/-- The uploads so far are sound, and the pass has taken the key chain `kc`. -/
structure Uploading (π : BackendPlatform) (key : VaultKey) (logs : Std.TreeMap UInt64 Bytes)
    (kc : Keychain) (history : History) : Prop where
  sound : AllSound π key logs history
  seen : history.2 = some kc
  epoch0 : kc.epochKey epoch0Id = some (key.epoch0Key π)

theorem get_put (r : Remote) (kind : SetKind) (id : String) (ct : Bytes) :
    (r.put kind id ct).get kind id = some ((r.get kind id).getD ct) := by
  simp only [Remote.put, Remote.get, if_true, Std.TreeMap.getElem?_insertIfNew,
    Std.TreeMap.mem_iff_isSome_getElem?, Std.compare_self, true_and]
  cases (r.objects kind)[id]? with
  | none => rfl
  | some ct' => rfl

theorem stored_answer {s : Session π} {payload : Sealed} {id : String} : Issue.Stored π.crypto
      { kind, id, payload, head, seen, before := s.remote.get kind id
        after := (answer s fun r =>
          ((), r.put kind id (payload.bytes π.crypto))).2.remote.get kind id
        answered := (answer s fun r => ((), r.put kind id (payload.bytes π.crypto))).1.isOk } := by
  have hput := get_put s.remote kind id (payload.bytes π.crypto)
  have hnew (hbefore : s.remote.get kind id = none) (ct : Bytes)
      (hct : (s.remote.put kind id (payload.bytes π.crypto)).get kind id = some ct) :
      ct = payload.bytes π.crypto := by
    rw [hput, hbefore] at hct
    exact (Option.some.inj hct).symm
  rw [answer]
  split
  next => exact ⟨fun _ => hput, hnew⟩
  next => exact ⟨by rintro ⟨⟩, fun hbefore _ hct => absurd (hbefore.symm.trans hct) (by rintro ⟨⟩)⟩
  next => exact ⟨by rintro ⟨⟩, hnew⟩

theorem Uploading.append {history : History}
    (h : Uploading π key logs kc history) (hi : i.Sound π key logs) :
    Uploading π key logs kc (history.1 ++ [i], history.2) :=
  ⟨List.forall_mem_append.2 ⟨h.sound, List.forall_mem_singleton.2 hi⟩, h.seen, h.epoch0⟩

theorem safe_upload {id : String} (hnames : Issue.Names π key logs id plaintext kind) :
    Safe (fun v => AllSound π key logs v.1) (fun v => Uploading π key logs kc v.1)
      (upload key kc kind id plaintext : Pass π Unit) fun _ v => Uploading π key logs kc v.1 := by
  apply safe_locked
  intro s hs
  dsimp only
  split
  next => exact ⟨hs.sound, fun _ _ => hs⟩
  next payload hsealed =>
    have hunder := sealUnderHead_some hsealed
    have hkey : kc.epochKey payload.epoch = some payload.key := by
      rw [hunder.epoch]
      rcases hunder.key with hkey | ⟨hhead, hkey⟩
      · exact hkey
      · rw [hhead, hkey]
        exact hs.epoch0
    have hmore := hs.append (i := {
      kind, id, payload
      head := s.head key
      seen := s.seen
      before := s.remote.get kind id
      after := (answer s fun r => ((), r.put kind id (payload.bytes π.crypto))).2.remote.get kind id
      answered := (answer s fun r => ((), r.put kind id (payload.bytes π.crypto))).1.isOk })
      ⟨⟨kc, hs.seen, hunder.epoch.symm, hkey⟩, stored_answer, by rwa [hunder.plaintext]⟩
    have haccount := account_answer s fun r => ((), r.put kind id (payload.bytes π.crypto))
    rw [← congrArg Prod.fst haccount] at hmore
    exact ⟨hmore.sound, fun _ _ => hmore⟩

theorem safe_getBlob {P : History → Prop} (hash : String)
    (hI : ∀ v, P v.1 → I v) :
    Safe I (fun v => P v.1) (getBlob hash : Pass π (Option Bytes)) fun r v => P v.1 ∧
      ∀ bytes, r = some bytes → blobHash π.toPlatform bytes = hash := by
  apply safe_locked
  intro s hs
  split
  next =>
    refine ⟨hI _ hs, ?_⟩
    rintro _ ⟨⟩
    exact ⟨hs, by rintro _ ⟨⟩⟩
  next =>
    split
    next heq =>
      refine ⟨hI _ hs, ?_⟩
      rintro _ ⟨⟩
      exact ⟨hs, by rintro _ ⟨⟩; exact heq⟩
    next => exact ⟨hI _ hs, by rintro _ ⟨⟩⟩

structure Listed (π : BackendPlatform) (key : VaultKey) (logs : Std.TreeMap UInt64 Bytes)
    (entries : List (String × Bytes)) (blobs : List (String × String)) : Prop where
  entries : ∀ e ∈ entries, Issue.Names π key logs e.1 e.2 .entries
  blobs : ∀ b ∈ blobs, key.blobId π b.2 = b.1

theorem safe_push (h : Listed π key logs entries blobs) :
    Safe (fun v => AllSound π key logs v.1) (fun v => Uploading π key logs kc v.1)
      (push key kc entries blobs haveEntries haveBlobs : Pass π Unit)
      fun _ v => Uploading π key logs kc v.1 := by
  have hsound (v : Account) (h : Uploading π key logs kc v.1) : AllSound π key logs v.1 := h.sound
  have hskip := Quiet.safe (p := (pure () : Pass π Unit)) trivial hsound
  have hentries : Safe (fun v => AllSound π key logs v.1) (fun v => Uploading π key logs kc v.1)
      (uploadEntries key kc haveEntries entries : Pass π Unit) fun _ v =>
        Uploading π key logs kc v.1 := by
    apply safe_forM
    rintro ⟨id, line⟩ hmem
    dsimp only
    split
    next => exact safe_upload (h.entries _ hmem)
    next => exact hskip
  apply hentries.bind
  intro _
  apply safe_forM
  rintro ⟨id, hash⟩ hmem
  dsimp only
  split
  next =>
    apply (safe_getBlob hash hsound).bind
    intro bytes
    apply Safe.of_pure
    intro hbytes
    cases bytes with
    | none => exact hskip
    | some bytes =>
      exact safe_upload ((congrArg (key.blobId π) (hbytes _ rfl)).trans (h.blobs _ hmem))
  next => exact hskip

theorem listed_local (s : Store π.toPlatform) :
    Listed π key s.disk.ops (localEntries key s) (localBlobs key s) where
  entries := by
    intro e he
    obtain ⟨peer, _, he⟩ := List.mem_flatMap.1 he
    obtain ⟨line, hline, rfl⟩ := List.mem_map.1 he
    exact ⟨peer, hline, rfl⟩
  blobs := by
    intro b hb
    obtain ⟨hash, _, rfl⟩ := List.mem_map.1 hb
    rfl

theorem safe_discover (hI : ∀ v, P v → I v) (hlogs : ∀ v, P v → v.2 = logs) :
    Safe I P (discover key : Pass π Found) fun found v =>
      P v ∧ Listed π key logs found.entries found.blobs := by
  apply (quiet_readOk.still hI).bind
  intro held
  have hread : Safe I P
      (read fun s => (localEntries key s.store, localBlobs key s.store) : Pass π _)
      fun p v => P v ∧ Listed π key logs p.1 p.2 := by
    apply safe_locked
    intro s hs
    refine ⟨hI _ hs, ?_⟩
    rintro _ ⟨⟩
    exact ⟨hs, hlogs _ hs ▸ listed_local s.store⟩
  apply hread.bind
  rintro ⟨entries, blobs⟩
  have hI' := fun v (h : P v ∧ Listed π key logs entries blobs) => hI v h.1
  apply (quiet_request.still hI').bind
  rintro ⟨haveEntries, needEntries⟩
  apply (quiet_request.still hI').bind
  rintro ⟨haveBlobs, needBlobs⟩ _ hs
  rintro _ ⟨⟩
  exact hs

theorem safe_takeKeychain : Safe (fun v => AllSound π key logs v.1)
    (fun v => AllSound π key logs v.1 ∧ v.2 = logs) (takeKeychain key : Pass π Keychain)
      fun kc v => Uploading π key logs kc v.1 ∧ v.2 = logs := by
  apply safe_locked
  intro s hs
  refine ⟨hs.1, fun kc hkc => ?_⟩
  cases hread : s.keychain key with
  | error e =>
    rw [hread] at hkc
    cases hkc
  | ok kc' =>
    rw [hread] at hkc
    cases hkc
    obtain ⟨entries, _, hbuild⟩ := except_bind_eq_ok.1 hread
    refine ⟨⟨hs.1, rfl, ?_⟩, hs.2⟩
    cases hbuild
    exact epochKey_epoch0

theorem safe_reconcileOnce : Safe (fun v => AllSound π key logs v.1)
    (fun v => AllSound π key logs v.1 ∧ v.2 = logs) (reconcileOnce key : Pass π Unit)
      fun _ v => AllSound π key logs v.1 := by
  apply (quiet_reconcileTrust.still fun _ h => h.1).bind
  intro _
  apply safe_takeKeychain.bind
  intro kc
  apply (quiet_importNeededSnapshots.still fun _ h => h.1.sound).bind
  intro _
  apply (safe_discover (fun _ h => h.1.sound) fun _ h => h.2).bind
  intro found
  apply Safe.of_pure
  intro hfound
  apply ((safe_push hfound).weaken fun _ h => h.1).bind
  intro _
  apply (quiet_pull.safe fun _ h => h.sound).bind
  exact fun _ => (quiet_maybeProduceSnapshot.safe fun _ h => h).weaken fun _ h => h.sound

end Uploads

def issuedAmid (key : VaultKey) (s : Session π) (turns : List (Option Interference)) : List Issue :=
  ((reconcileOnce key).run.interleave (Session.disturb key) s.begin turns).2.issued

theorem issued_sound (s : Session π) (turns : List (Option Interference)) :
    ∀ i ∈ issuedAmid key s turns, i.Sound π key s.store.disk.ops := by
  have hbegin : AllSound π key s.store.disk.ops s.begin.history :=
    fun _ h => absurd h List.not_mem_nil
  exact (Task.Triple.interleave safe_reconcileOnce account_disturb ⟨hbegin, rfl⟩ hbegin turns).1

end Pass

/-- A pass seals all that it puts on the server with the key that its key chain has for the epoch.
That is the head of that moment exactly if the head is then still the one that the pass found when
it took its key chain. -/
theorem uploads_under_head_iff (π : BackendPlatform) (key : VaultKey) (s : Session π)
    (turns : List (Option Interference)) :
    (∀ i ∈ Pass.issuedAmid key s turns, ∃ kc, i.seen = some kc ∧
        kc.epochKey i.payload.epoch = some i.payload.key) ∧
      ((∀ i ∈ Pass.issuedAmid key s turns, ∀ e, i.head = some e → i.payload.epoch = e) ↔
        ∀ i ∈ Pass.issuedAmid key s turns, ∀ e, i.head = some e →
          i.seen.map Keychain.head = some e) := by
  have hseen (i : Issue) (hi : i ∈ Pass.issuedAmid key s turns) :=
    (Pass.issued_sound s turns i hi).seen
  refine ⟨?_, ?_, ?_⟩
  · intro i hi
    obtain ⟨kc, hkc, _, hkey⟩ := hseen i hi
    exact ⟨kc, hkc, hkey⟩
  · intro h i hi e he
    obtain ⟨kc, hkc, hhead, _⟩ := hseen i hi
    rw [hkc, ← h i hi e he, ← hhead]
    rfl
  · intro h i hi e he
    obtain ⟨kc, hkc, hhead, _⟩ := hseen i hi
    have hsome := h i hi e he
    rw [hkc] at hsome
    exact hhead.symm.trans (Option.some.inj hsome)

section Sample
open Store

def uint8Code : PrefixCode UInt8 :=
  PrefixCode.ofNat 2 UInt8.toNat (fun n => if n < 2 ^ 8 then some (UInt8.ofNat n) else none)
    (fun a => a.toNat_lt.trans (by decide)) (by
      intro n a
      rw [Option.ite_none_right_eq_some, Option.some.injEq]
      constructor
      · intro h
        rw [← h.2, UInt8.toNat_ofNat_of_lt' h.1]
      · intro h
        rw [← h]
        exact ⟨a.toNat_lt, UInt8.ofNat_toNat⟩)

def signedLogCode : PrefixCode TrustBundle.SignedLog :=
  .via (.pair .uint64 .string) {
    toFun log := (log.peer, log.bytes)
    invFun t := ⟨t.1, t.2⟩
    left_inv _ := rfl
    right_inv _ := rfl }

def trustCode : PrefixCode TrustBundle :=
  .via (.pair uint8Code (.pair (.list signedLogCode) (.list signedLogCode))) {
    toFun b := (b.v, b.rosters, b.keylogs)
    invFun t := ⟨t.1, t.2.1, t.2.2⟩
    left_inv _ := rfl
    right_inv _ := rfl }

abbrev sampleBackend : BackendPlatform where
  toSyncPlatform := sampleSync
  keyedHash _ bytes := (Bytes32.ofBytes? (bytes.drop (bytes.length - 32))).getD default
  b64UrlEncode := plainEncode
  trustJson := plainJson trustCode
  renderManifest _ := []
  linePeer line := ((plainJson entryLineCode).parse line.dropLast).toOption.map EntryLine.peer

theorem length_sampleNonce : (List.replicate 24 (0 : UInt8)).length = 24 := List.length_replicate

def sampleAmbient : Ambient where
  nonce := List.replicate 24 7
  wraps _ := { ephSecret := default, nonce := List.replicate 24 0, size := length_sampleNonce }
  io _ := .done
  order := ascending
  now := 5
  retentionLag := 0
  fault := none

def emptyRemote : Remote where
  objects _ := ∅
  snapshotWanted := false

def sampleKey : VaultKey := ⟨.replicate 9⟩

def sampleSession (store : Store samplePlatform) : Session sampleBackend where
  store := store
  files := noFiles
  poisoned := []
  remote := emptyRemote
  ambient := sampleAmbient
  issued := []
  seen := none

def sampleFounder : Store samplePlatform :=
  runAll after (sampleVault 1) [sampleFound, .edit .done sampleEdit]

def rotatedMidway : List (Option Interference) :=
  List.replicate 4 none ++ some (.rotate (sampleSeed 5) none) :: List.replicate 7 none

theorem rotatedMidway_issued :
    (Pass.issuedAmid sampleKey (sampleSession sampleFounder) rotatedMidway).map
      (fun i => (i.head, i.payload.epoch)) = [(some (.replicate 5), epoch0Id)] := by
  decide +kernel

/-- The line goes to the server under epoch 0 when the head is already the new epoch. -/
theorem upload_under_older_epoch :
    ∃ (key : VaultKey) (s : Session sampleBackend) (turns : List (Option Interference)),
      ∃ i ∈ Pass.issuedAmid key s turns, ∃ e, i.head = some e ∧ i.payload.epoch ≠ e := by
  have hmem := List.mem_of_mem_head? (congrArg List.head? rotatedMidway_issued)
  obtain ⟨i, hi, heq⟩ := List.mem_map.1 hmem
  obtain ⟨hhead, hepoch⟩ := Prod.mk.inj heq
  refine ⟨sampleKey, sampleSession sampleFounder, rotatedMidway, i, hi, .replicate 5, hhead, ?_⟩
  rw [hepoch]
  decide

end Sample

end Roam
