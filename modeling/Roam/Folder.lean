import Roam.Bridge
import Roam.Library.FileTree

namespace Roam.Bridge
set_option autoImplicit true
open Library Library.Fallible

/-- A key as `container_id` makes it: names with a slash between them. Two of them never lead to the
same file. -/
structure VaultKey where
  path : String
  normal : ∀ c ∈ splitPath path, EntryName c
deriving DecidableEq

namespace VaultKey

instance : Ord VaultKey := ⟨compareOn path⟩

instance : Std.TransOrd VaultKey := inferInstanceAs (Std.TransCmp (compareOn path))

instance : Std.LawfulEqOrd VaultKey where
  eq_of_compare {a b} h := by
    have hpath : a.path = b.path := Std.LawfulEqOrd.eq_of_compare h
    cases a
    cases b
    cases hpath
    rfl

theorem mem_splitPath_append {path name c : String} (h : '/' ∉ name.toList)
    (hc : c ∈ splitPath (path ++ name)) :
    c ∈ splitPath path ∨ ∃ last ∈ splitPath path, c = last ++ name := by
  obtain ⟨lines, tail, htext, hl, ht⟩ := exists_joinLines '/' path.toList
  have htail : '/' ∉ tail ++ name.toList := by
    rw [List.mem_append, not_or]
    exact ⟨ht, h⟩
  rw [splitPath, String.toList_append, htext, List.append_assoc, splitOn_joinLines hl htail] at hc
  rw [splitPath, htext, splitOn_joinLines hl ht]
  obtain ⟨piece, hpiece, rfl⟩ := List.mem_map.1 hc
  cases List.mem_append.1 hpiece with
  | inl hpiece => exact .inl (List.mem_map_of_mem (List.mem_append_left _ hpiece))
  | inr hpiece =>
    rw [List.mem_singleton.1 hpiece]
    refine .inr ⟨String.ofList tail, List.mem_map_of_mem (List.mem_append_right _ ?_), ?_⟩
    · exact List.mem_singleton_self tail
    · rw [String.ofList_append, String.ofList_toList]

def temp (k : VaultKey) : VaultKey where
  path := k.path ++ ".tmp"
  normal := by
    intro c hc
    rcases mem_splitPath_append (by decide) hc with hc | ⟨last, hlast, rfl⟩
    · exact k.normal c hc
    · have hentry := k.normal last hlast
      have hlong : 4 ≤ (last ++ ".tmp").length := by
        rw [String.length_append]
        exact Nat.le_add_left 4 _
      have hchars (ch : Char) (hn : ch ∉ last.toList) (hn' : ch ∉ ".tmp".toList) :
          ch ∉ (last ++ ".tmp").toList := by
        rw [String.toList_append, List.mem_append, not_or]
        exact ⟨hn, hn'⟩
      refine ⟨?_, ?_, ?_, hchars '/' hentry.no_slash (by decide),
        hchars _ hentry.no_nul (by decide)⟩
      · intro h
        rw [h] at hlong
        exact absurd hlong (by decide)
      · intro h
        rw [h] at hlong
        exact absurd hlong (by decide)
      · intro h
        rw [h] at hlong
        exact absurd hlong (by decide)

theorem temp_ne (k : VaultKey) : k.temp ≠ k := by
  intro h
  have hlen := congrArg (fun k => k.path.length) h
  simp only [temp, String.length_append] at hlen
  have : ".tmp".length = 4 := rfl
  omega

/-- The walk of the vault finds the file of a key: no component is hidden, and it is no file of the
bridge's own. -/
def walked (k : VaultKey) : Bool :=
  (splitPath k.path).all (fun c => c.toList.head? != some '.') &&
    !(".roammeta".toList).isSuffixOf k.path.toList && !(".roamblob".toList).isSuffixOf k.path.toList

def filesetMapId : String := "__roam_fileset__"

end VaultKey

/-- The files of a vault and of its bridge, when no symbolic link is among them. A sidecar that does
not parse is `none`. -/
structure Folder where
  files : Std.TreeMap VaultKey Bytes
  sidecars : Std.TreeMap VaultKey (Option Sidecar)
  markers : Std.TreeMap VaultKey Unit

inductive FileCall
  | collect
  | read (key : VaultKey)
  | createDirs (key : VaultKey)
  | writeTemp (key : VaultKey)
  | rename (key : VaultKey)
  | remove (key : VaultKey)
  | loadSidecar (key : VaultKey)
  | storeSidecar (key : VaultKey)
  | removeSidecar (key : VaultKey)
  | writeMarker (key : VaultKey)
  | removeMarker (key : VaultKey)
deriving DecidableEq

section Api
variable (refused : FileCall → Option String)

def tryCall (call : FileCall) : Except (FilesError VaultKey VaultKey) Unit :=
  match refused call with
  | some msg => .error (.io msg)
  | none => .ok ()

def changeFolder (call : FileCall) (f : Folder → Folder) (d : Folder) :
    Except (FilesError VaultKey VaultKey) Unit × Folder :=
  match tryCall refused call with
  | .ok () => (.ok (), f d)
  | .error err => (.error err, d)

def atomicWrite (key : VaultKey) (bytes : Bytes) (d : Folder) :
    Except (FilesError VaultKey VaultKey) Unit × Folder :=
  match tryCall refused (.writeTemp key) with
  | .error err => (.error err, { d with files := d.files.erase key.temp })
  | .ok () =>
    match tryCall refused (.rename key) with
    | .error err => (.error err, { d with files := d.files.erase key.temp })
    | .ok () => (.ok (), { d with files := (d.files.erase key.temp).insert key bytes })

def folderApi : FolderApi VaultKey VaultKey Folder where
  collectVaultFiles d := do
    tryCall refused .collect
    pure (d.files.keys.filter VaultKey.walked)
  containerId file := if file.path = VaultKey.filesetMapId then .error (.reservedName file)
    else .ok file
  keyToPath := id
  withinVault _ _ := true
  read d file := do
    tryCall refused (.read file)
    pure d.files[file]?
  pathExists d file := d.files.contains file
  write file bytes d :=
    match tryCall refused (.createDirs file) with
    | .error err => (.error err, d)
    | .ok () => atomicWrite refused file bytes d
  removeFile file :=
    changeFolder refused (.remove file) fun d => { d with files := d.files.erase file }
  loadSidecar d key := do
    tryCall refused (.loadSidecar key)
    match d.sidecars[key]? with
    | none => pure none
    | some none => .error (.sidecar "failed to parse")
    | some (some sidecar) => pure (some sidecar)
  sidecarExists d key := d.sidecars.contains key
  storeSidecar key sidecar := changeFolder refused (.storeSidecar key) fun d =>
    { d with sidecars := d.sidecars.insert key (some sidecar) }
  removeSidecar key := changeFolder refused (.removeSidecar key) fun d =>
    { d with sidecars := d.sidecars.erase key }
  markerExists d key := d.markers.contains key
  writeMarker key := changeFolder refused (.writeMarker key) fun d =>
    { d with markers := d.markers.insert key () }
  removeMarker key := changeFolder refused (.removeMarker key) fun d =>
    { d with markers := d.markers.erase key }

end Api

end Roam.Bridge
