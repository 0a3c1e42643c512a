import Roam.AdminStanding
import Roam.LogImports

namespace Roam
set_option autoImplicit true
open Library Library.Fallible

namespace Store
variable {π : Platform}

/-- One entry of the merged key log in a recovery: a key that only the paper key opens is wrapped to
the device itself. -/
def recoverEntry (s : Store π) (kc : Keychain) (wraps : Nat → WrapSeed) (paperSecret : Bytes32)
    (acc : Nat × List Bytes32) (entry : KeyLogEntry) : StoreM π (Nat × List Bytes32) :=
  let (recovered, done) := acc
  if entry.epochId ∈ done ∨ (kc.epochKey entry.epochId).isSome then pure acc
  else
    match entry.body with
    | .wrap .paper blob =>
      match unwrap π.crypto paperSecret blob with
      | some key =>
        if kc.keyMatchesEpoch π.crypto entry.epochId key then do
          appendKeylog entry.epochId (.wrap (.device s.peerId)
            (wrap π.crypto (wraps recovered) (π.toX25519 s.selfKey) key))
          pure (recovered + 1, entry.epochId :: done)
        else pure acc
      | none => pure acc
    | _ => pure acc

/-- Take back the epochs that only the paper key opens; how many. The secret is the one that the
phrase gives. -/
def recoverWithPaper (wraps : Nat → WrapSeed) (paperSecret idKey epoch0Key : Bytes32) :
    StoreM π Nat := do
  let s ← get
  let kc ← ofResult (s.keychain idKey epoch0Key)
  let entries ← ofResult s.mergedKeylog
  let (recovered, _) ← entries.foldlM (s.recoverEntry kc wraps paperSecret) (0, [])
  pure recovered

end Store

inductive TrustCall
  | sync (c : SyncCall)
  | rotateEpoch (seed : Store.RotationSeed) (idKey epoch0Key : Bytes32) (paperPublic : Option
      Bytes32)
  | backfillWraps (wraps : Nat → WrapSeed) (idKey epoch0Key : Bytes32)
  | recoverWithPaper (wraps : Nat → WrapSeed) (paperSecret idKey epoch0Key : Bytes32)

def TrustCall.run {π : Platform} : TrustCall → StoreM π Unit
  | .sync c => c.run
  | .rotateEpoch seed idKey epoch0Key paperPublic => do
    let _ ← Store.rotateEpoch seed idKey epoch0Key paperPublic
  | .backfillWraps wraps idKey epoch0Key => do
    let _ ← Store.backfillWraps wraps idKey epoch0Key
  | .recoverWithPaper wraps paperSecret idKey epoch0Key => do
    let _ ← Store.recoverWithPaper wraps paperSecret idKey epoch0Key

def SyncCall.Imports : SyncCall → Prop
  | .roster _ _ => False
  | .importRoster _ _ _ _ => True
  | .importBundle _ _ => True
  | .importKeylog _ _ _ => True

namespace Store
variable {π : Platform} {s s' s'' : Store π}

def afterTrust (s : Store π) (c : TrustCall) : Store π := (exec c.run s).2

section Growth

structure LogsGrow (s s' : Store π) : Prop where
  identity : s'.identity = s.identity
  rosters : ∀ author : UInt64, s.disk.rosters[author]?.getD [] <+: s'.disk.rosters[author]?.getD []
  keylogs : ∀ author : UInt64, s.disk.keylogs[author]?.getD [] <+: s'.disk.keylogs[author]?.getD []

theorem LogsGrow.refl (s : Store π) : LogsGrow s s :=
  ⟨rfl, fun _ => List.prefix_rfl, fun _ => List.prefix_rfl⟩

theorem LogsGrow.trans (h : LogsGrow s s') (h' : LogsGrow s' s'') : LogsGrow s s'' :=
  ⟨h'.identity.trans h.identity, fun author => (h.rosters author).trans (h'.rosters author),
    fun author => (h.keylogs author).trans (h'.keylogs author)⟩

instance : IsPreorder (Store π) LogsGrow where
  refl := .refl
  trans _ _ _ := .trans

theorem SameFiles.logsGrow (h : SameFiles s s') : LogsGrow s s' := by
  refine ⟨h.identity, fun author => ?_, fun author => ?_⟩
  · rw [h.disk]
  · rw [h.disk]

theorem getD_insert_grows {logs : Std.TreeMap UInt64 Bytes} {author : UInt64}
    (h : logs[author]?.getD [] <+: bytes) (a : UInt64) :
    logs[a]?.getD [] <+: (logs.insert author bytes)[a]?.getD [] := by
  by_cases ha : author = a
  · subst ha
    rw [Std.TreeMap.getElem?_insert_self]
    exact h
  · rw [get_insert, if_neg ha]

theorem withRoster_grows (h : s.disk.rosters[author]?.getD [] <+: bytes) :
    LogsGrow s (s.withRoster author bytes) :=
  ⟨rfl, getD_insert_grows h, fun _ => List.prefix_rfl⟩

theorem withKeylog_grows (h : s.disk.keylogs[author]?.getD [] <+: bytes) :
    LogsGrow s (s.withKeylog author bytes) :=
  ⟨rfl, fun _ => List.prefix_rfl, getD_insert_grows h⟩

theorem getD_prefix_of_extends {stored : Option Bytes}
    (h : checkExtends what stored bytes = .ok u) :
    stored.getD [] <+: bytes := by
  cases stored with
  | none => exact List.nil_prefix
  | some existing => exact checkExtends_ok_iff.1 h existing rfl

theorem bundleLog_grows (self : UInt64) (rosters : Std.TreeMap UInt64 Bytes) (log : UInt64 × Bytes)
    (a : UInt64) : rosters[a]?.getD [] <+: (bundleLog self rosters log)[a]?.getD [] := by
  rw [bundleLog]
  split
  next => exact List.prefix_rfl
  next =>
    split
    next existing hstored =>
      split
      next hextends =>
        apply getD_insert_grows
        rw [hstored]
        exact List.isPrefixOf_iff_prefix.1 hextends
      next => exact List.prefix_rfl
    next hstored =>
      apply getD_insert_grows
      rw [hstored]
      exact List.nil_prefix

theorem withBundle_grows (s : Store π) (logs : List (UInt64 × Bytes)) :
    LogsGrow s (s.withBundle logs) := by
  have hfold (rosters : Std.TreeMap UInt64 Bytes) (a : UInt64) :
      rosters[a]?.getD [] <+: (logs.foldl (bundleLog s.peerId) rosters)[a]?.getD [] := by
    induction logs generalizing rosters with
    | nil => exact List.prefix_rfl
    | cons log logs ih => exact (bundleLog_grows _ rosters log a).trans (ih _)
  exact ⟨rfl, hfold s.disk.rosters, fun _ => List.prefix_rfl⟩

theorem refreshPeers_grows (order : RosterOrder) :
    Leaves LogsGrow (refreshPeers order : StoreM π Unit) :=
  ⟨fun s => (refreshPeers_sameFiles order s).logsGrow⟩

theorem prefix_appendLine (file : Option Bytes) (line : Bytes) :
    file.getD [] <+: appendLine file line :=
  List.prefix_append _ _

theorem signOwn_grows (h : s.signOwn lamport op subject key = .ok (entry, file)) :
    LogsGrow s (s.withRoster s.peerId file) := by
  have hid : ¬ s.identity.peerId π ≠ s.peerId := not_not.2 rfl
  rw [signOwn, RosterLog.append, if_neg hid, except_bind_eq_ok] at h
  obtain ⟨entries, _, hfile⟩ := h
  cases hfile
  exact withRoster_grows (prefix_appendLine _ _)

theorem authorRoster_grows (orders : RosterOrder × RosterOrder) (op : RosterOp) (subject : UInt64)
    (key : Bytes32) : Leaves LogsGrow (authorRoster orders op subject key : StoreM π Unit) := by
  refine ⟨fun s => ?_⟩
  rw [exec_authorRoster]
  split
  next => exact .refl s
  next =>
    split
    next => exact .refl s
    next hsigned => exact (signOwn_grows hsigned).trans ((refreshPeers_grows _).holds _)

theorem authorAsAdmin_grows (orders : RosterOrder × RosterOrder) (op : RosterOp) (peer : UInt64)
    (key : Bytes32) : Leaves LogsGrow (authorAsAdmin orders op peer key : StoreM π Unit) := by
  refine ⟨fun s => ?_⟩
  rw [exec_authorAsAdmin]
  split
  next => exact .refl s
  next =>
    split
    next => exact .refl s
    next => exact (authorRoster_grows orders op peer key).holds s

theorem withFounder_grows (s : Store π) (peer : UInt64) : LogsGrow s (s.withFounder peer) :=
  ⟨rfl, fun _ => List.prefix_rfl, fun _ => List.prefix_rfl⟩

theorem rosterCall_grows (orders : RosterOrder × RosterOrder) (c : RosterCall) :
    Leaves LogsGrow (c.run orders : StoreM π Unit) := by
  cases c with
  | addPeer peer key role => exact authorAsAdmin_grows orders _ peer key
  | setRole peer key role => exact authorAsAdmin_grows orders _ peer key
  | revokePeer peer key => exact authorAsAdmin_grows orders _ peer key
  | declareFounder role =>
    refine ⟨fun s => ?_⟩
    rw [RosterCall.run, exec_declareFounder]
    split
    next => exact .refl s
    next =>
      split
      next => exact .refl s
      next => exact (withFounder_grows s _).trans ((authorRoster_grows orders _ _ _).holds _)
  | setDeviceName name =>
    refine ⟨fun s => ?_⟩
    rw [RosterCall.run, exec_setDeviceName]
    split
    next => exact .refl s
    next => exact (authorRoster_grows orders _ _ _).holds s
  | pinFounder peer =>
    refine ⟨fun s => ?_⟩
    rw [RosterCall.run, exec_pinFounder]
    split
    next =>
      split
      next => exact .refl s
      next => exact .refl s
    next => exact (withFounder_grows s peer).trans ((refreshPeers_grows _).holds _)

theorem importRoster_grows (order : RosterOrder) (author : UInt64) (key : Bytes32) (bytes : Bytes) :
    Leaves LogsGrow (importRoster order author key bytes : StoreM π Unit) := by
  refine ⟨fun s => ?_⟩
  rw [exec_importRoster]
  split
  next => exact .refl s
  next =>
    split
    next => exact .refl s
    next hextends =>
      split
      next => exact .refl s
      next =>
        exact (withRoster_grows (getD_prefix_of_extends hextends)).trans
          ((refreshPeers_grows _).holds _)

theorem importKeylog_grows (author : UInt64) (key : Bytes32) (bytes : Bytes) :
    Leaves LogsGrow (importKeylog author key bytes : StoreM π Unit) := by
  refine ⟨fun s => ?_⟩
  rw [exec_importKeylog]
  split
  next => exact .refl s
  next =>
    split
    next => exact .refl s
    next hextends =>
      split
      next => exact .refl s
      next => exact withKeylog_grows (getD_prefix_of_extends hextends)

theorem syncCall_grows (c : SyncCall) : Leaves LogsGrow (c.run : StoreM π Unit) := by
  cases c with
  | roster orders c => exact rosterCall_grows orders c
  | importRoster order author key bytes => exact importRoster_grows order author key bytes
  | importKeylog author key bytes => exact importKeylog_grows author key bytes
  | importBundle order logs =>
    refine ⟨fun s => ?_⟩
    rw [SyncCall.run, exec_importRosterBundle]
    exact (withBundle_grows s logs).trans ((refreshPeers_grows order).holds _)

theorem withOwnKeylog_grows (s : Store π) (more : Bytes) :
    LogsGrow s (s.withKeylog s.peerId (s.exportKeylog s.peerId ++ more)) :=
  withKeylog_grows (List.prefix_append _ _)

theorem recoverEntry_grows (s : Store π) (kc : Keychain) (wraps : Nat → WrapSeed)
    (paperSecret : Bytes32) (acc : Nat × List Bytes32) (entry : KeyLogEntry) :
    Leaves LogsGrow (s.recoverEntry kc wraps paperSecret acc entry) := by
  rw [recoverEntry]
  split
  next => exact .pure acc
  next =>
    split
    next =>
      split
      next =>
        split
        next =>
          exact (appendKeylogIo_leaves withOwnKeylog_grows _ _ _).bind fun _ => .pure _
        next => exact .pure acc
      next => exact .pure acc
    next => exact .pure acc

theorem recoverWithPaper_grows (wraps : Nat → WrapSeed) (paperSecret idKey epoch0Key : Bytes32) :
    Leaves LogsGrow (recoverWithPaper wraps paperSecret idKey epoch0Key : StoreM π Nat) := by
  refine Leaves.get.bind fun s => ?_
  refine (Leaves.ofResult (s.keychain idKey epoch0Key)).bind fun kc => ?_
  refine (Leaves.ofResult s.mergedKeylog).bind fun entries => ?_
  exact (Leaves.foldlM (s.recoverEntry_grows kc wraps paperSecret)).bind fun acc => .pure acc.1

theorem afterTrust_grows (s : Store π) (c : TrustCall) : LogsGrow s (s.afterTrust c) := by
  cases c with
  | sync c => exact (syncCall_grows c).holds s
  | rotateEpoch seed idKey epoch0Key paperPublic =>
    exact ((rotateEpoch_leaves withOwnKeylog_grows seed idKey epoch0Key paperPublic).bind
      fun _ => .pure ()).holds s
  | backfillWraps wraps idKey epoch0Key =>
    exact ((backfillWrapsIo_leaves withOwnKeylog_grows _ wraps idKey epoch0Key).bind
      fun _ => .pure ()).holds s
  | recoverWithPaper wraps paperSecret idKey epoch0Key =>
    exact ((recoverWithPaper_grows wraps paperSecret idKey epoch0Key).bind
      fun _ => .pure ()).holds s

theorem runTrust_grows (s : Store π) (calls : List TrustCall) :
    LogsGrow s (runAll afterTrust s calls) := by
  induction calls generalizing s with
  | nil => exact .refl s
  | cons c calls ih => exact (afterTrust_grows s c).trans (ih _)

end Growth

section Imports

/-- The roster log of another device that the vault was founded by is text, if it is stored. -/
def FounderReadable (s : Store π) : Prop :=
  ∀ fid bytes, s.founder = some fid → fid ≠ s.peerId → s.disk.rosters[fid]? = some bytes →
    validUtf8 bytes = true

theorem refreshPeers_ok (h : s.FounderReadable) (order : RosterOrder) :
    (exec (refreshPeers order) s).1 = .ok () := by
  have hpeek (fid : UInt64) (hf : s.founder = some fid) (hne : fid ≠ s.peerId) :
      ∃ key?, RosterLog.peekSelfKey π fid s.disk.rosters[fid]? = .ok key? :=
    peekSelfKey_ok fun bytes hbytes => h fid bytes hf hne hbytes
  obtain ⟨t, ht⟩ := seeds_ok hpeek
  obtain ⟨entries, hentries⟩ := collect_of_seeds ht order
  rw [exec_refreshPeers, hentries]

theorem refreshPeers_error (h : ¬ s.FounderReadable) (order : RosterOrder) :
    ∃ e, (exec (refreshPeers order) s).1 = .error e := by
  simp only [FounderReadable, not_forall] at h
  obtain ⟨fid, bytes, hf, hne, hstored, hbad⟩ := h
  have hpeek :
      RosterLog.peekSelfKey π fid s.disk.rosters[fid]? = .error (.io (π.utf8Error bytes)) := by
    rw [hstored, RosterLog.peekSelfKey, if_neg hbad]
  have hother :
      (Std.TreeMap.insert (∅ : Std.TreeMap UInt64 Bytes32) s.peerId s.selfKey).contains fid =
        false := by
    rw [Std.TreeMap.contains_insert, Std.TreeMap.contains_emptyc, Bool.or_false,
      beq_eq_false_iff_ne]
    exact fun heq => hne (Std.LawfulEqOrd.compare_eq_iff_eq.1 heq).symm
  have hcollect : s.collect order = .error (.io (π.utf8Error bytes)) := by
    simp only [collect, collectRosterEntries, trustSeeds, hf, hother, hpeek]
    rfl
  rw [exec_refreshPeers, hcollect]
  exact ⟨_, rfl⟩

structure SameTrust (s s' : Store π) : Prop where
  rosters : ∀ author : UInt64, s'.disk.rosters[author]? = s.disk.rosters[author]?
  keylogs : ∀ author : UInt64, s'.disk.keylogs[author]? = s.disk.keylogs[author]?

structure CleanImport (s : Store π) (c : SyncCall) : Prop where
  roster : (exec c.run s).2.disk.rosters[s.peerId]? = s.disk.rosters[s.peerId]?
  keylog : (exec c.run s).2.disk.keylogs[s.peerId]? = s.disk.keylogs[s.peerId]?
  failed : ∀ e, (exec c.run s).1 = .error e → SameTrust s (exec c.run s).2

structure Accepts (s : Store π) (author : UInt64) (key : Bytes32) (bytes : Bytes) : Prop where
  other : author ≠ s.peerId
  extending : ∀ stored, s.disk.rosters[author]? = some stored → stored <+: bytes
  verified : ∃ entries, verifyBytes π (rosterReader π author key) bytes = .ok entries

/-- If the import is to change a roster log, the founder's log is text then. A log that verifies is
text; the logs of a bundle are not verified before they are written. -/
def Readable (s : Store π) : SyncCall → Prop
  | .importRoster _ author key bytes =>
    s.Accepts author key bytes → s.disk.rosters[author]? ≠ some bytes → s.founder ≠ some author →
      s.FounderReadable
  | .importBundle _ logs =>
    (∃ author : UInt64, (s.withBundle logs).disk.rosters[author]? ≠ s.disk.rosters[author]?) →
      (s.withBundle logs).FounderReadable
  | _ => True

theorem sameTrust_of_disk (h : s'.disk = s.disk) : SameTrust s s' := by
  refine ⟨fun author => ?_, fun author => ?_⟩
  · rw [h]
  · rw [h]

theorem cleanImport_of_same (h : (exec c.run s).2 = s) : s.CleanImport c where
  roster := by rw [h]
  keylog := by rw [h]
  failed _ _ := sameTrust_of_disk (by rw [h])

theorem cleanImport_refreshed_iff {t : Store π} (hrun : exec c.run s = exec (refreshPeers order) t)
    (hroster : t.disk.rosters[s.peerId]? = s.disk.rosters[s.peerId]?)
    (hkeylogs : t.disk.keylogs = s.disk.keylogs) : s.CleanImport c ↔
      ((∃ author : UInt64, t.disk.rosters[author]? ≠ s.disk.rosters[author]?) →
        t.FounderReadable) := by
  have hdisk : (exec c.run s).2.disk = t.disk := by
    rw [hrun]
    exact (refreshPeers_sameFiles order t).disk
  constructor
  · intro hclean hchanged
    by_contra hunreadable
    obtain ⟨author, hne⟩ := hchanged
    obtain ⟨e, he⟩ := refreshPeers_error hunreadable order
    have hsame := (hclean.failed e (by rw [hrun, he])).rosters author
    rw [hdisk] at hsame
    exact hne hsame
  · intro hreadable
    refine ⟨?_, ?_, fun e he => ?_⟩
    · rw [hdisk, hroster]
    · rw [hdisk, hkeylogs]
    · refine ⟨fun author => ?_, fun author => ?_⟩
      · by_contra hne
        rw [hdisk] at hne
        rw [hrun, refreshPeers_ok (hreadable ⟨author, hne⟩) order] at he
        cases he
      · rw [hdisk, hkeylogs]

theorem accepts_iff :
    s.Accepts author key bytes ↔
      author ≠ s.peerId ∧
        (∃ u, checkExtends s!"roster {author} log" s.disk.rosters[author]? bytes = .ok u) ∧
        ∃ entries, verifyBytes π (rosterReader π author key) bytes = .ok entries := by
  have hextends :
      (∃ u, checkExtends s!"roster {author} log" s.disk.rosters[author]? bytes = .ok u) ↔
      ∀ stored, s.disk.rosters[author]? = some stored → stored <+: bytes := by
    rw [← checkExtends_ok_iff]
    exact ⟨fun ⟨_, hu⟩ => hu, fun h => ⟨_, h⟩⟩
  rw [hextends]
  exact ⟨fun h => ⟨h.other, h.extending, h.verified⟩, fun h => ⟨h.1, h.2.1, h.2.2⟩⟩

theorem validUtf8_of_verified (h : verifyBytes π reader bytes = .ok entries) :
    validUtf8 bytes = true := by
  rw [verifyBytes] at h
  split at h
  next hvalid => exact hvalid
  next => cases h

theorem rosters_withRoster (s : Store π) (author : UInt64) (bytes : Bytes) (a : UInt64) :
    (s.withRoster author bytes).disk.rosters[a]? =
      if author = a then some bytes else s.disk.rosters[a]? := get_insert

theorem withRoster_changed_iff :
    (∃ a : UInt64, (s.withRoster author bytes).disk.rosters[a]? ≠ s.disk.rosters[a]?) ↔
      s.disk.rosters[author]? ≠ some bytes := by
  constructor
  · rintro ⟨a, ha⟩ hsame
    rw [rosters_withRoster] at ha
    split at ha
    next heq =>
      subst heq
      exact ha hsame.symm
    next => exact ha rfl
  · intro hne
    refine ⟨author, ?_⟩
    rw [rosters_withRoster, if_pos rfl]
    exact hne.symm

theorem founderReadable_withRoster_iff (hvalid : validUtf8 bytes = true) :
    (s.withRoster author bytes).FounderReadable ↔
      (s.founder ≠ some author → s.FounderReadable) := by
  constructor
  · intro h hfounder fid stored hf hne hstored
    refine h fid stored hf hne ?_
    have hother : author ≠ fid := fun heq => hfounder (heq ▸ hf)
    rw [rosters_withRoster, if_neg hother]
    exact hstored
  · intro h fid stored hf hne hstored
    rw [rosters_withRoster] at hstored
    split at hstored
    next heq =>
      cases hstored
      exact hvalid
    next hother =>
      have hfounder : s.founder ≠ some author := by
        intro heq
        exact hother (Option.some.inj (heq.symm.trans hf))
      exact h hfounder fid stored hf hne hstored

theorem exec_importRoster_accepted (h : s.Accepts author key bytes) :
    exec (importRoster order author key bytes) s =
      exec (refreshPeers order) (s.withRoster author bytes) := by
  obtain ⟨hother, ⟨u, hextends⟩, entries, hverified⟩ := accepts_iff.1 h
  rw [exec_importRoster, if_neg hother, hextends, hverified]

theorem exec_importRoster_refused (h : ¬ s.Accepts author key bytes) :
    (exec (importRoster order author key bytes) s).2 = s := by
  rw [exec_importRoster]
  split
  next => rfl
  next hother =>
    split
    next => rfl
    next u hextends =>
      split
      next => rfl
      next entries hverified =>
        exact absurd (accepts_iff.2 ⟨hother, ⟨u, hextends⟩, entries, hverified⟩) h

theorem importRoster_clean_iff (order : RosterOrder) (author : UInt64) (key : Bytes32)
    (bytes : Bytes) :
    s.CleanImport (.importRoster order author key bytes) ↔
      s.Readable (.importRoster order author key bytes) := by
  by_cases haccepts : s.Accepts author key bytes
  · obtain ⟨entries, hverified⟩ := haccepts.verified
    have hown :
        (s.withRoster author bytes).disk.rosters[s.peerId]? = s.disk.rosters[s.peerId]? := by
      rw [rosters_withRoster, if_neg haccepts.other]
    have hclean := cleanImport_refreshed_iff (c := .importRoster order author key bytes)
      (exec_importRoster_accepted haccepts) hown rfl
    rw [hclean, withRoster_changed_iff,
      founderReadable_withRoster_iff (validUtf8_of_verified hverified)]
    exact ⟨fun h _ => h, fun h => h haccepts⟩
  · have hsame : (exec (importRoster order author key bytes) s).2 = s :=
      exec_importRoster_refused haccepts
    exact iff_of_true (cleanImport_of_same hsame) fun h => absurd h haccepts

theorem importKeylog_clean (author : UInt64) (key : Bytes32) (bytes : Bytes) :
    s.CleanImport (.importKeylog author key bytes) := by
  have hrun : (exec (SyncCall.importKeylog author key bytes).run s).2 = s ∨
      author ≠ s.peerId ∧
        exec (SyncCall.importKeylog author key bytes).run s =
          (.ok (), s.withKeylog author bytes) := by
    rw [SyncCall.run, exec_importKeylog]
    split
    next => exact .inl rfl
    next hother =>
      split
      next => exact .inl rfl
      next =>
        split
        next => exact .inl rfl
        next => exact .inr ⟨hother, rfl⟩
  rcases hrun with hsame | ⟨hother, hrun⟩
  · exact cleanImport_of_same hsame
  · refine ⟨?_, ?_, fun e he => ?_⟩
    · rw [hrun]
      rfl
    · rw [hrun]
      exact get_insert.trans (if_neg hother)
    · rw [hrun] at he
      cases he

theorem import_clean_iff (hc : c.Imports) : s.CleanImport c ↔ s.Readable c := by
  cases c with
  | roster orders c => cases hc
  | importRoster order author key bytes => exact importRoster_clean_iff order author key bytes
  | importBundle order logs =>
      exact cleanImport_refreshed_iff exec_importRosterBundle bundleLog_self rfl
  | importKeylog author key bytes => exact iff_of_true (importKeylog_clean author key bytes) trivial

def Clean (s : Store π) (c : TrustCall) : Prop :=
  ∀ call, c = .sync call → call.Imports → s.CleanImport call

/-- The condition under which every roster import of a run that changes a log also rebuilds the
roster. -/
def ReadsFounder (s : Store π) (c : TrustCall) : Prop :=
  ∀ call, c = .sync call → call.Imports → s.Readable call

/-- In a run from any store, every log only grows, and the imports leave the own logs, and when they
fail all logs, as they were: exactly if no import leaves a founder's log that is no text. -/
theorem trust_logs_iff (s : Store π) (calls : List TrustCall) :
    ((∀ earlier later rest, calls = earlier ++ later ++ rest →
          LogsGrow (runAll afterTrust s earlier) (runAll afterTrust s (earlier ++ later))) ∧
        Along afterTrust Clean s calls) ↔ Along afterTrust ReadsFounder s calls := by
  have hgrows (earlier later rest : List TrustCall) (_ : calls = earlier ++ later ++ rest) :
      LogsGrow (runAll afterTrust s earlier) (runAll afterTrust s (earlier ++ later)) := by
    rw [runAll_append]
    exact runTrust_grows _ later
  have hsame : (Clean : Store π → TrustCall → Prop) = ReadsFounder := by
    apply funext₂
    intro s c
    exact propext (forall_congr' fun call => forall_congr' fun _ => forall_congr' import_clean_iff)
  rw [and_iff_right hgrows, hsame]

end Imports

section Sample

def follower : Store samplePlatform :=
  runAll after (sampleVault 2) (sampleFollow (runAll after (sampleVault 1) [sampleFound,
    sampleJoin]))

def spoiledLog : Bytes := follower.disk.rosters[(sampleVault 1).peerId]?.getD [] ++ [255]

/-- The import of a bundle fails, and the log of the founder is spoiled. -/
theorem failed_bundle_spoils_log :
    (exec (importRosterBundle ascending [((sampleVault 1).peerId, spoiledLog)]) follower).1 =
        .error (.io (samplePlatform.utf8Error spoiledLog)) ∧
      follower.disk.rosters[(sampleVault 1).peerId]? ≠ some spoiledLog ∧
      (exec (importRosterBundle ascending [((sampleVault 1).peerId, spoiledLog)])
        follower).2.disk.rosters[(sampleVault 1).peerId]? = some spoiledLog := by
  refine ⟨?_, ?_, ?_⟩ <;> decide +kernel

end Sample

end Store

end Roam
