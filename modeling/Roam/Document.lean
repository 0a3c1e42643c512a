import Roam.Base

namespace Roam

inductive DocEdit (Frontier : Type)
  | insertText (id : String) (pos : Nat) (s : String)
  | deleteText (id : String) (pos len : Nat)
  | setEntry (mapId key value : String)
  | removeEntry (mapId key : String)
  | revertContainer (id : String) (target : Frontier)

/-- The document library: a document with its versions (which operations it has seen) and its
frontiers (points of its history). An edit is buffered until `commit`. -/
structure DocLib where
  Doc : Type
  Version : Type
  Frontier : Type
  versionEq : DecidableEq Version
  versionBytes : Version → Bytes
  versionOf : Bytes → Except String Version
  includes : Version → Version → Bool
  frontierBytes : Frontier → Bytes
  frontierOf : Bytes → Except String Frontier
  newDoc : UInt64 → Except String Doc
  fromSnapshot : UInt64 → Bytes → Except String Doc
  edit : Doc → DocEdit Frontier → Except String Doc
  importUpdate : Doc → Bytes → Except String Doc
  importAuthoredBy : Doc → UInt64 → Bytes → Except String Doc
  commit : Doc → Doc
  version : Doc → Version
  exportFrom : Doc → Version → Except String Bytes
  snapshot : Doc → Except String Bytes
  oplogFrontier : Doc → Frontier
  shallowSnapshot : Doc → Frontier → Except String Bytes
  checkout : Doc → Frontier → Except String Doc
  checkoutLatest : Doc → Doc
  entries : Doc → String → List (String × String)

instance (docs : DocLib) : DecidableEq docs.Version := docs.versionEq

end Roam
