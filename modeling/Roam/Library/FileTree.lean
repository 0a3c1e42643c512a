import Roam.Library.Text

namespace Library
set_option autoImplicit true

/-- A place in a file tree: the names that lead to it, the innermost first. -/
abbrev Place := List String

inductive FileNode
  | dir
  | file (bytes : List UInt8)
  | link (target : String)
deriving DecidableEq

structure EntryName (name : String) : Prop where
  ne_empty : name ≠ ""
  ne_dot : name ≠ "."
  ne_dots : name ≠ ".."
  no_slash : '/' ∉ name.toList
  no_nul : '\x00' ∉ name.toList

instance : DecidablePred EntryName := fun name =>
  decidable_of_iff (name ≠ "" ∧ name ≠ "." ∧ name ≠ ".." ∧ '/' ∉ name.toList ∧
      '\x00' ∉ name.toList)
    ⟨fun h => ⟨h.1, h.2.1, h.2.2.1, h.2.2.2.1, h.2.2.2.2⟩,
      fun h => ⟨h.ne_empty, h.ne_dot, h.ne_dots, h.no_slash, h.no_nul⟩⟩

structure FileTree where
  node : Place → Option FileNode
  support : List Place
  finite : ∀ p, (node p).isSome → p ∈ support
  root : node [] = some .dir
  parent : ∀ name dir, (node (name :: dir)).isSome → node dir = some .dir
  named : ∀ name dir, (node (name :: dir)).isSome → EntryName name

inductive FileError
  | notFound
  | notDirectory
  | isDirectory
  | tooManyLinks
  | invalidPath
deriving DecidableEq, Repr

def splitPath (path : String) : List String := (path.toList.splitOn '/').map String.ofList

def isAbsolute (path : String) : Bool := path.toList.head? == some '/'

/-- A path after another one, as `Path::join` has it. -/
def joinPath (base path : String) : String :=
  if isAbsolute path then path
  else if base = "" ∨ base.toList.getLast? = some '/' then base ++ path
  else base ++ "/" ++ path

theorem splitPath_append (base path : String) :
    splitPath (base ++ "/" ++ path) = splitPath base ++ splitPath path := by
  have hslash : "/".toList = ['/'] := rfl
  rw [splitPath, String.toList_append, String.toList_append, hslash, List.append_assoc,
    List.singleton_append, List.splitOn_append_cons_self, List.map_append]
  rfl

theorem splitPath_of_name (h : '/' ∉ name.toList) : splitPath name = [name] := by
  rw [splitPath, List.splitOn_eq_singleton h, List.map_singleton, String.ofList_toList]

theorem splitPath_ne_nil (path : String) : splitPath path ≠ [] := by
  rw [splitPath, ne_eq, List.map_eq_nil_iff]
  exact List.splitOn_ne_nil _ _

theorem mem_splitPath (h : c ∈ splitPath path) :
    '/' ∉ c.toList ∧ ∀ ch ∈ c.toList, ch ∈ path.toList := by
  obtain ⟨lines, tail, htext, hl, ht⟩ := exists_joinLines '/' path.toList
  rw [splitPath, htext, splitOn_joinLines hl ht] at h
  obtain ⟨piece, hpiece, rfl⟩ := List.mem_map.1 h
  rw [String.toList_ofList, htext]
  cases List.mem_append.1 hpiece with
  | inl hpiece =>
    refine ⟨hl piece hpiece, ?_⟩
    intro ch hch
    apply List.mem_append_left
    exact List.mem_flatMap.2 ⟨piece, hpiece, List.mem_append_left _ hch⟩
  | inr hpiece =>
    cases List.mem_singleton.1 hpiece
    exact ⟨ht, fun ch hch => List.mem_append_right _ hch⟩

theorem joinPath_eq (hb : base ≠ "") (hl : base.toList.getLast? ≠ some '/')
    (hp : isAbsolute path = false) : joinPath base path = base ++ "/" ++ path := by
  rw [joinPath, hp, if_neg Bool.false_ne_true, if_neg (not_or_intro hb hl)]

theorem splitPath_joinPath (base path : String) :
    splitPath path <:+ splitPath (joinPath base path) := by
  rw [joinPath]
  split
  next => exact List.suffix_rfl
  next =>
    split
    next h =>
      rcases h with rfl | hl
      · rw [String.empty_append]
      · -- a base that ends in a slash is followed by the path as it is
        obtain ⟨front, hfront⟩ := List.getLast?_eq_some_iff.1 hl
        have hbase : base = String.ofList front ++ "/" := by
          rw [← String.toList_inj, hfront, String.toList_append, String.toList_ofList]
          rfl
        rw [hbase, splitPath_append]
        exact List.suffix_append _ _
    next =>
      rw [splitPath_append]
      exact List.suffix_append _ _

def absPath (names : List String) : String :=
  names.foldl (fun path name => path ++ "/" ++ name) ""

theorem splitPath_foldl {names : List String} (h : ∀ name ∈ names, '/' ∉ name.toList)
    (base : String) : splitPath (names.foldl (fun path name => path ++ "/" ++ name) base) =
      splitPath base ++ names := by
  induction names generalizing base with
  | nil => exact (List.append_nil _).symm
  | cons name names ih =>
    rw [List.forall_mem_cons] at h
    rw [List.foldl_cons, ih h.2, splitPath_append, splitPath_of_name h.1, List.append_assoc]
    rfl

theorem splitPath_absPath {names : List String} (h : ∀ name ∈ names, '/' ∉ name.toList) :
    splitPath (absPath names) = "" :: names :=
  splitPath_foldl h ""

theorem isAbsolute_append (hb : base ≠ "") : isAbsolute (base ++ path) = isAbsolute base := by
  have hne : base.toList ≠ [] := fun hnil => hb (String.toList_inj.1 hnil)
  rw [isAbsolute, isAbsolute, String.toList_append, List.head?_append_of_ne_nil _ hne]

theorem isAbsolute_foldl {names : List String} (h : isAbsolute base = true) :
    isAbsolute (names.foldl (fun path name => path ++ "/" ++ name) base) = true := by
  have hne {path : String} (h : isAbsolute path = true) : path ≠ "" := by
    rintro rfl
    cases h
  induction names generalizing base with
  | nil => exact h
  | cons name names ih =>
    apply ih
    have hslash : isAbsolute (base ++ "/") = true := by rw [isAbsolute_append (hne h), h]
    rw [isAbsolute_append (hne hslash), hslash]

theorem isAbsolute_absPath (name : String) (names : List String) :
    isAbsolute (absPath (name :: names)) = true := by
  rw [absPath, List.foldl_cons]
  apply isAbsolute_foldl
  rw [isAbsolute, String.empty_append, String.toList_append]
  rfl

theorem joinPath_absPath (hr : EntryName r) (hp : isAbsolute path = false) :
    joinPath (absPath [r]) path = absPath [r, path] := by
  have hne : r.toList ≠ [] := fun hnil => hr.ne_empty (String.toList_inj.1 hnil)
  have hlast : (absPath [r]).toList.getLast? = r.toList.getLast? := by
    rw [absPath, List.foldl_cons, List.foldl_nil, String.toList_append,
      List.getLast?_append_of_ne_nil _ hne]
  apply joinPath_eq
  · intro hempty
    have hnil : (absPath [r]).toList = [] := by rw [hempty]; rfl
    rw [hnil, List.getLast?_nil] at hlast
    exact hne (List.getLast?_eq_none_iff.1 hlast.symm)
  · rw [hlast]
    exact fun h => hr.no_slash (List.mem_of_getLast? h)
  · exact hp

theorem nul_mem_joinPath (h : '\x00' ∈ path.toList) : '\x00' ∈ (joinPath base path).toList := by
  rw [joinPath]
  split
  next => exact h
  next =>
    split
    next =>
      rw [String.toList_append]
      exact List.mem_append_right _ h
    next =>
      rw [String.toList_append]
      exact List.mem_append_right _ h

namespace FileTree
variable (t : FileTree)

def ofList (entries : List (Place × FileNode))
    (h : ∀ e ∈ entries, EntryName (e.1.headD "") ∧
      (e.1.tail = [] ∨ entries.lookup e.1.tail = some .dir)) : FileTree :=
  have hmem {name : String} {dir : Place}
      (hp : (if name :: dir = [] then some .dir else entries.lookup (name :: dir)).isSome) :
      ∃ x, (name :: dir, x) ∈ entries := by
    rw [if_neg (List.cons_ne_nil name dir)] at hp
    obtain ⟨x, hx⟩ := Option.isSome_iff_exists.1 hp
    obtain ⟨l₁, l₂, heq, _⟩ := List.lookup_eq_some_iff.1 hx
    exact ⟨x, heq ▸ List.mem_append_right l₁ List.mem_cons_self⟩
  { node := fun p => if p = [] then some .dir else entries.lookup p
    support := [] :: entries.map Prod.fst
    finite := by
      intro p hp
      cases p with
      | nil => exact List.mem_cons_self
      | cons name dir =>
        obtain ⟨x, hx⟩ := hmem hp
        exact List.mem_cons_of_mem _ (List.mem_map_of_mem hx)
    root := rfl
    parent := by
      intro name dir hp
      obtain ⟨x, hx⟩ := hmem hp
      split
      next => rfl
      next hne => exact (h _ hx).2.resolve_left hne
    named := by
      intro name dir hp
      obtain ⟨x, hx⟩ := hmem hp
      exact (h _ hx).1 }

def names (dir : Place) : List String :=
  (t.support.filterMap fun p =>
    match p with
    | [] => none
    | name :: parent => if parent = dir ∧ (t.node p).isSome then some name else none).dedup

theorem mem_names {dir : Place} : name ∈ t.names dir ↔ (t.node (name :: dir)).isSome := by
  rw [names, List.mem_dedup, List.mem_filterMap]
  constructor
  · intro h
    obtain ⟨p, _, hp⟩ := h
    cases p with
    | nil => cases hp
    | cons n parent =>
      simp only [Option.ite_none_right_eq_some] at hp
      obtain ⟨⟨rfl, hsome⟩, hname⟩ := hp
      cases hname
      exact hsome
  · intro h
    exact ⟨name :: dir, t.finite _ h, if_pos ⟨rfl, h⟩⟩

theorem node_tail {dir : Place} (h : t.node dir = some .dir) : t.node dir.tail = some .dir := by
  cases dir with
  | nil => exact t.root
  | cons name dir =>
    apply t.parent name dir
    rw [h]
    rfl

/-- Where one component of a path leads: to a place, or by a link to a path from a place on. -/
inductive Hop
  | to (place : Place)
  | via (start : Place) (path : List String)

def hop (cur : Place) (c : String) : Except FileError Hop :=
  if t.node cur ≠ some .dir then .error .notDirectory
  else if c = "" ∨ c = "." then .ok (.to cur)
  else if c = ".." then .ok (.to cur.tail)
  else
    match t.node (c :: cur) with
    | none => .error .notFound
    | some (.link target) => .ok (.via (if isAbsolute target then [] else cur) (splitPath target))
    | some _ => .ok (.to (c :: cur))

/-- Walk along the components of a path. At a link the walk goes on as `follow` says. -/
def walkWith (follow : Place → List String → Except FileError Place) :
    Place → List String → Except FileError Place
  | cur, [] => .ok cur
  | cur, c :: rest =>
    match t.hop cur c with
    | .error err => .error err
    | .ok (.to place) => walkWith follow place rest
    | .ok (.via start path) => follow start (path ++ rest)

def walk : Nat → Place → List String → Except FileError Place
  | 0 => t.walkWith fun _ _ => .error .tooManyLinks
  | links + 1 => t.walkWith (walk links)

variable {t} in
theorem walk_to {place : Place} (h : t.hop cur c = .ok (.to place)) :
    t.walk links cur (c :: rest) = t.walk links place rest := by
  cases links with
  | zero => rw [walk, walkWith, h]
  | succ links => rw [walk, walkWith, h]

variable {t} in
theorem walk_via (h : t.hop cur c = .ok (.via start path)) :
    t.walk (links + 1) cur (c :: rest) = t.walk links start (path ++ rest) := by
  rw [walk, walkWith, h]

def DirComponent (c : String) : Prop := c = "" ∨ c = "." ∨ c = ".."

variable {t}

theorem hop_ok (h : t.hop cur c = .ok reached) : t.node cur = some .dir ∧
      (DirComponent c ∧ (∃ p, reached = .to p ∧ t.node p = some .dir) ∨
        ¬ DirComponent c ∧ (t.node (c :: cur)).isSome) := by
  rw [hop] at h
  split at h
  next => cases h
  next hdir =>
    have hcur : t.node cur = some .dir := Decidable.not_not.1 hdir
    refine ⟨hcur, ?_⟩
    split at h
    next hc =>
      cases h
      exact .inl ⟨hc.imp_right .inl, cur, rfl, hcur⟩
    next hc =>
      split at h
      next hdots =>
        cases h
        exact .inl ⟨.inr (.inr hdots), cur.tail, rfl, t.node_tail hcur⟩
      next hdots =>
        rw [not_or] at hc
        refine .inr ⟨not_or_intro hc.1 (not_or_intro hc.2 hdots), ?_⟩
        split at h
        next => cases h
        next hn => rw [hn]; rfl
        next hn => rw [hn]; rfl

theorem hop_empty (h : t.node cur = some .dir) : t.hop cur "" = .ok (.to cur) := by
  rw [hop, if_neg (not_not.2 h), if_pos (.inl rfl)]

theorem hop_entry (h : t.node cur = some .dir) (hn : EntryName name) :
    t.hop cur name =
      match t.node (name :: cur) with
      | none => .error .notFound
      | some (.link target) => .ok (.via (if isAbsolute target then [] else cur) (splitPath target))
      | some _ => .ok (.to (name :: cur)) := by
  rw [hop, if_neg (not_not.2 h), if_neg (not_or_intro hn.ne_empty hn.ne_dot), if_neg hn.ne_dots]

theorem hop_dir (h : t.node cur = some .dir) (hn : EntryName name)
    (hd : t.node (name :: cur) = some .dir) : t.hop cur name = .ok (.to (name :: cur)) := by
  rw [hop_entry h hn, hd]

theorem hop_link (h : t.node cur = some .dir) (hn : EntryName name)
    (hl : t.node (name :: cur) = some (.link target)) :
    t.hop cur name = .ok (.via (if isAbsolute target then [] else cur) (splitPath target)) := by
  rw [hop_entry h hn, hl]

variable (t) in
/-- The last step of a walk: from a directory to itself or its parent, or to one of its entries. -/
def LastStep (c : String) (dir p : Place) : Prop :=
  t.node dir = some .dir ∧
    (DirComponent c ∧ t.node p = some .dir ∨ ¬ DirComponent c ∧ (t.node (c :: dir)).isSome)

theorem walkWith_concat {follow : Place → List String → Except FileError Place} {cs : List String}
    (hf : ∀ cur cs, follow cur (cs ++ [c]) = .ok p → ∃ d, follow cur cs = .ok d ∧ t.LastStep c d p)
    (h : t.walkWith follow cur (cs ++ [c]) = .ok p) :
    ∃ d, t.walkWith follow cur cs = .ok d ∧ t.LastStep c d p := by
  induction cs generalizing cur with
  | nil =>
    rw [List.nil_append, walkWith] at h
    refine ⟨cur, rfl, ?_⟩
    split at h
    next => cases h
    next place hhop =>
      cases h
      obtain ⟨hcur, hlast⟩ := hop_ok hhop
      refine ⟨hcur, hlast.imp_left ?_⟩
      rintro ⟨hc, q, heq, hq⟩
      cases heq
      exact ⟨hc, hq⟩
    next start path hhop =>
      obtain ⟨hcur, hlast⟩ := hop_ok hhop
      refine ⟨hcur, hlast.imp_left ?_⟩
      rintro ⟨_, q, heq, _⟩
      cases heq
  | cons c' cs ih =>
    rw [List.cons_append, walkWith] at h
    rw [walkWith]
    split at h
    next => cases h
    next place hhop => exact ih h
    next start path hhop =>
      rw [← List.append_assoc] at h
      exact hf start (path ++ cs) h

theorem walk_concat (h : t.walk links cur (cs ++ [c]) = .ok p) :
    ∃ d, t.walk links cur cs = .ok d ∧ t.LastStep c d p := by
  induction links generalizing cur cs with
  | zero => exact walkWith_concat (fun cur cs h => nomatch h) h
  | succ links ih => exact walkWith_concat (fun cur cs h => ih h) h

end FileTree

structure Machine where
  tree : FileTree
  cwd : Place
  cwd_dir : tree.node cwd = some .dir
  maxLinks : Nat

namespace Machine
variable (m : Machine)

def resolve (path : String) : Except FileError Place :=
  if '\x00' ∈ path.toList then .error .invalidPath
  else if path = "" then .error .notFound
  else m.tree.walk m.maxLinks (if isAbsolute path then [] else m.cwd) (splitPath path)

def read (path : String) : Except FileError (List UInt8) :=
  match m.resolve path with
  | .error err => .error err
  | .ok place =>
    match m.tree.node place with
    | some (.file bytes) => .ok bytes
    | some .dir => .error .isDirectory
    | _ => .error .notFound

def readDir (path : String) : Except FileError (List String) :=
  match m.resolve path with
  | .error err => .error err
  | .ok place =>
    if m.tree.node place = some .dir then .ok (m.tree.names place) else .error .notDirectory

variable {m}

theorem resolve_ok : m.resolve path = .ok p ↔ '\x00' ∉ path.toList ∧ path ≠ "" ∧
      m.tree.walk m.maxLinks (if isAbsolute path then [] else m.cwd) (splitPath path) = .ok p := by
  rw [resolve]
  split
  next h => simp only [reduceCtorEq, h, not_true_eq_false, false_and]
  next h =>
    split
    next h' => simp only [reduceCtorEq, h', ne_eq, not_true_eq_false, false_and, and_false]
    next h' => simp only [h, h', ne_eq, not_false_eq_true, true_and]

theorem read_ok :
    m.read path = .ok bytes ↔
      ∃ p, m.resolve path = .ok p ∧ m.tree.node p = some (.file bytes) := by
  rw [read]
  cases m.resolve path with
  | error err => simp only [reduceCtorEq, false_and, exists_false]
  | ok place =>
    simp only [Except.ok.injEq, exists_eq_left']
    split
    next bytes' h => simp only [h, Except.ok.injEq, Option.some.injEq, FileNode.file.injEq]
    next h => simp only [reduceCtorEq, h, Option.some.injEq]
    next h _ =>
      refine ⟨nofun, ?_⟩
      intro hfile
      exact absurd hfile (h bytes)

theorem readDir_ok (h : m.resolve path = .ok p) (hp : m.tree.node p = some .dir) :
    m.readDir path = .ok (m.tree.names p) := by
  rw [readDir, h]
  exact if_pos hp

theorem readDir_names (h : m.readDir path = .ok names) : ∃ p, names = m.tree.names p := by
  rw [readDir] at h
  split at h
  next => cases h
  next place _ =>
    split at h
    next =>
      cases h
      exact ⟨place, rfl⟩
    next => cases h

theorem resolve_parent (hb : base ≠ "") (hn : EntryName name)
    (h : m.resolve (base ++ "/" ++ name) = .ok p) :
    ∃ d, m.resolve base = .ok d ∧ m.tree.node d = some .dir ∧ (m.tree.node (name :: d)).isSome := by
  obtain ⟨hnul, _, hwalk⟩ := resolve_ok.1 h
  have habs : isAbsolute (base ++ "/" ++ name) = isAbsolute base := by
    rw [String.append_assoc, isAbsolute_append hb]
  rw [splitPath_append, splitPath_of_name hn.no_slash, habs] at hwalk
  obtain ⟨d, hd, hdir, hlast⟩ := FileTree.walk_concat hwalk
  refine ⟨d, resolve_ok.2 ⟨?_, hb, hd⟩, hdir, ?_⟩
  · intro hmem
    apply hnul
    rw [String.toList_append, String.toList_append, List.append_assoc]
    exact List.mem_append_left _ hmem
  · cases hlast with
    | inl hlast =>
      rcases hlast.1 with hc | hc | hc
      · exact absurd hc hn.ne_empty
      · exact absurd hc hn.ne_dot
      · exact absurd hc hn.ne_dots
    | inr hlast => exact hlast.2

theorem resolve_dir (hl : (splitPath path).getLast? = some c) (hc : FileTree.DirComponent c)
    (h : m.resolve path = .ok p) : m.tree.node p = some .dir := by
  obtain ⟨_, _, hwalk⟩ := resolve_ok.1 h
  obtain ⟨cs, hcs⟩ := List.getLast?_eq_some_iff.1 hl
  rw [hcs] at hwalk
  obtain ⟨d, _, _, hlast⟩ := FileTree.walk_concat hwalk
  cases hlast with
  | inl hlast => exact hlast.2
  | inr hlast => exact absurd hc hlast.1

end Machine

end Library
