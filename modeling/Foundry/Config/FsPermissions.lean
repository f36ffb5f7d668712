import Foundry.Base.Words

/-!
# Permissions for paths of the file system

A cheatcode may use a file if a permission covers it: one for a directory above the file, after
symbolic links are resolved.  Of several that cover it the one with the greatest path decides, in
the order of the paths as they are written.
-/

namespace Foundry.Config

open List

/-- A component of a path, declared in the order in which components compare. -/
inductive Component where
  | rootDir
  | curDir
  | parentDir
  | normal (name : Bytes)
deriving DecidableEq

abbrev Path := List Component

namespace Component

/-- Components compare by their kind, names by their bytes. -/
def key : Component → List Nat
  | rootDir => [0]
  | curDir => [1]
  | parentDir => [2]
  | normal name => 3 :: name.map BitVec.toNat

end Component

namespace Path

/-- The order of paths: lexicographic, component by component. -/
def key (path : Path) : List (List Nat) := path.map Component.key

def startsWith (path base : Path) : Bool := base.isPrefixOf path

theorem startsWith_iff (path base : Path) : startsWith path base = true ↔ base <+: path :=
  List.isPrefixOf_iff_prefix

end Path

inductive FsAccessKind where
  | read
  | write
deriving DecidableEq

inductive FsAccessPermission where
  | none
  | readWrite
  | read
  | write
deriving DecidableEq

def FsAccessPermission.isGranted : FsAccessPermission → FsAccessKind → Bool
  | readWrite, _ => true
  | none, _ => false
  | read, .read => true
  | write, .write => true
  | _, _ => false

structure PathPermission where
  access : FsAccessPermission
  path : Path
deriving DecidableEq

structure FsPermissions where
  permissions : List PathPermission

/-- `canonicalize`, which resolves symbolic links and fails for a path that does not exist. -/
abbrev Canonicalize := Path → Option Path

def PathPermission.permissionPath (canonicalize : Canonicalize) (perm : PathPermission) : Path :=
  (canonicalize perm.path).getD perm.path

namespace FsPermissions

def consider (canonicalize : Canonicalize) (path : Path) (permission : Option PathPermission)
    (perm : PathPermission) : Option PathPermission :=
  if path.startsWith (perm.permissionPath canonicalize) then
    match permission with
    | some activePerm =>
      -- meant to be the longest path
      if Path.key perm.path < Path.key activePerm.path then permission else some perm
    | none => some perm
  else permission

def findPermission (canonicalize : Canonicalize) (self : FsPermissions) (path : Path) :
    Option FsAccessPermission :=
  (self.permissions.foldl (consider canonicalize path) none).map (·.access)

def isPathAllowed (canonicalize : Canonicalize) (self : FsPermissions) (path : Path)
    (kind : FsAccessKind) : Bool :=
  ((self.findPermission canonicalize path).map (·.isGranted kind)).getD false

end FsPermissions

/-! ## The permission that is found -/

section Found

variable {canonicalize : Canonicalize} {path : Path} {perm : PathPermission}
  {permissions : List PathPermission} {active other : PathPermission}
  {permission : Option PathPermission}

/-- The permission is for the path or a directory above it. -/
def Covers (canonicalize : Canonicalize) (path : Path) (perm : PathPermission) : Prop :=
  perm.permissionPath canonicalize <+: path

instance : Decidable (Covers canonicalize path perm) := inferInstanceAs (Decidable (_ <+: _))

/-- It covers the path, and no other that does has a longer canonical path. -/
def Longest (canonicalize : Canonicalize) (path : Path) (permissions : List PathPermission)
    (perm : PathPermission) : Prop :=
  perm ∈ permissions ∧ Covers canonicalize path perm ∧
    ∀ other ∈ permissions, Covers canonicalize path other →
      (other.permissionPath canonicalize).length ≤ (perm.permissionPath canonicalize).length

/-- What the loop holds after the permissions it went through: one with the greatest raw path. -/
def Chosen (canonicalize : Canonicalize) (path : Path) (permissions : List PathPermission) :
    Option PathPermission → Prop
  | none => ∀ perm ∈ permissions, ¬ Covers canonicalize path perm
  | some perm => perm ∈ permissions ∧ Covers canonicalize path perm ∧
      ∀ other ∈ permissions, Covers canonicalize path other →
        Path.key other.path ≤ Path.key perm.path

theorem Chosen.skip (h : Chosen canonicalize path permissions permission)
    (hperm : ¬ Covers canonicalize path perm) :
    Chosen canonicalize path (permissions ++ [perm]) permission := by
  cases permission with
  | none =>
    intro other hother
    rcases mem_append.mp hother with hother | hother
    · exact h other hother
    · rw [mem_singleton.mp hother]
      exact hperm
  | some active =>
    refine ⟨mem_append_left _ h.1, h.2.1, fun other hother hcovers => ?_⟩
    rcases mem_append.mp hother with hother | hother
    · exact h.2.2 other hother hcovers
    · rw [mem_singleton.mp hother] at hcovers
      exact absurd hcovers hperm

theorem Chosen.replace (hcovers : Covers canonicalize path perm)
    (h : ∀ other ∈ permissions, Covers canonicalize path other →
      Path.key other.path ≤ Path.key perm.path) :
    Chosen canonicalize path (permissions ++ [perm]) (some perm) := by
  refine ⟨by simp, hcovers, fun other hother hcovers' => ?_⟩
  rcases mem_append.mp hother with hother | hother
  · exact h other hother hcovers'
  · rw [mem_singleton.mp hother]

/-- One round keeps what the loop holds. -/
theorem Chosen.consider
    (h : Chosen canonicalize path permissions permission) (perm : PathPermission) :
    Chosen canonicalize path (permissions ++ [perm])
      (FsPermissions.consider canonicalize path permission perm) := by
  unfold FsPermissions.consider
  by_cases hcovers : Covers canonicalize path perm
  · rw [if_pos ((Path.startsWith_iff _ _).mpr hcovers)]
    cases permission with
    | none =>
      exact Chosen.replace hcovers fun other hother hcovers' => absurd hcovers' (h other hother)
    | some active =>
      dsimp only
      split
      · next hlt =>
        refine ⟨mem_append_left _ h.1, h.2.1, fun other hother hcovers' => ?_⟩
        rcases mem_append.mp hother with hother | hother
        · exact h.2.2 other hother hcovers'
        · rw [mem_singleton.mp hother]
          exact hlt.le
      · next hlt =>
        refine Chosen.replace hcovers fun other hother hcovers' => ?_
        exact (h.2.2 other hother hcovers').trans (not_lt.mp hlt)
  · rw [if_neg fun hstarts => hcovers ((Path.startsWith_iff _ _).mp hstarts)]
    exact h.skip hcovers

/-- The loop ends with a permission of the greatest raw path, or with none if none covers the
path. -/
theorem chosen_foldl (canonicalize : Canonicalize) (path : Path)
    (permissions : List PathPermission) :
    Chosen canonicalize path permissions
      (permissions.foldl (FsPermissions.consider canonicalize path) none) := by
  induction permissions using List.reverseRecOn with
  | nil => simp [Chosen]
  | append_singleton permissions perm ih =>
    rw [foldl_concat]
    exact ih.consider perm

end Found

/-! ## Precedence -/

/-- The access of a permission with the longest canonical path, if one covers the path. -/
def FindsLongest (canonicalize : Canonicalize) (self : FsPermissions) (path : Path) : Prop :=
  match self.findPermission canonicalize path with
  | none => ∀ perm ∈ self.permissions, ¬ Covers canonicalize path perm
  | some access => ∃ perm, Longest canonicalize path self.permissions perm ∧ perm.access = access

/-- Of two permissions above the path, the one that is farther down has the greater raw path. -/
def RawOrdered (canonicalize : Canonicalize) (self : FsPermissions) (path : Path) : Prop :=
  ∀ perm ∈ self.permissions, ∀ other ∈ self.permissions,
    Covers canonicalize path perm → Covers canonicalize path other →
    (perm.permissionPath canonicalize).length < (other.permissionPath canonicalize).length →
    Path.key perm.path < Path.key other.path

/-- A proper initial part of a list is smaller than the list. -/
theorem lt_of_prefix_of_length_lt {a b : List (List Nat)} (h : a <+: b)
    (hlength : a.length < b.length) : a < b := by
  obtain ⟨rest, rfl⟩ := h
  cases rest with
  | nil => simp at hlength
  | cons head rest =>
    induction a with
    | nil => exact List.nil_lt_cons _ _
    | cons first a ih =>
      rw [List.cons_append, List.cons_lt_cons_iff]
      exact .inr ⟨rfl, ih (by simp)⟩

/-- The raw paths are in order if permissions are written with their canonical paths. -/
theorem rawOrdered_of_canonical {canonicalize : Canonicalize} {self : FsPermissions} {path : Path}
    (h : ∀ perm ∈ self.permissions, Covers canonicalize path perm →
      perm.permissionPath canonicalize = perm.path) :
    RawOrdered canonicalize self path := by
  intro perm hperm other hother hcovers hcovers' hlength
  rw [h perm hperm hcovers, h other hother hcovers'] at hlength
  unfold Covers at hcovers hcovers'
  rw [h perm hperm hcovers] at hcovers
  rw [h other hother hcovers'] at hcovers'
  have hstarts : perm.path <+: other.path :=
    List.prefix_of_prefix_length_le hcovers hcovers' hlength.le
  exact lt_of_prefix_of_length_lt (hstarts.map _) (by simpa [Path.key] using hlength)

def dir (names : List (BitVec 8)) : Path := .rootDir :: names.map fun name => .normal [name]

/-- Nothing may be done with `/p/b/c`, but everything elsewhere in `/p/b`. -/
def nestedCanonical : FsPermissions := ⟨[⟨.none, dir [1, 3, 4]⟩, ⟨.readWrite, dir [1, 3]⟩]⟩

/-- Nothing may be done with `/p/b/c`, which is written `/p/a/../b/c`. -/
def nested : FsPermissions :=
  ⟨[⟨.none, dir [1, 2] ++ [.parentDir, .normal [3], .normal [4]]⟩, ⟨.readWrite, dir [1, 3]⟩]⟩

/-- Links are not there, and `..` is resolved. -/
def resolve : Canonicalize := fun path =>
  if path = dir [1, 2] ++ [.parentDir, .normal [3], .normal [4]] then some (dir [1, 3, 4])
  else some path

end Foundry.Config
