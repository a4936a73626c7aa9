import ForensicVfs.Core.Registry

/-!
# The access-route locator

`locator.rs`: a chain of layers, root first, each naming one layer and its location in the layer
below. A Unix path is its bytes. So `=` on layers and locators is byte for byte, which is finer than
the derived `Eq` of the source: that compares a `PathBuf` by its components.
-/

namespace ForensicVfs

/-- A 16-byte GUID. -/
structure Guid where
  bytes : Vector UInt8 16
  deriving DecidableEq

/-- A reference to one snapshot within a snapshot set. -/
inductive SnapshotRef where
  | vssStore (index : Usize)
  | apfsXid (xid : UInt64)
  deriving DecidableEq

/-- How a node is addressed within a filesystem. -/
inductive NodeAddr where
  | path (components : List Bytes)
  | file (id : FileId)
  | both (path : List Bytes) (id : FileId)
  deriving DecidableEq

/-- One layer in the locator chain. -/
inductive Layer where
  | file (path : Bytes)
  | directory (path : Bytes)
  | range (start len : UInt64)
  | container (format : ContainerFormat)
  | volume (scheme : VolumeScheme) (index : Usize) (guid : Option Guid)
  | encryption (scheme : EncryptionScheme)
  | snapshot (store : SnapshotRef)
  | fs (kind : FsKind) (addr : NodeAddr)
  | stream (id : StreamId)
  | archive (member : Option Usize)
  deriving DecidableEq

/-- The recursive locator: a parentless layer, or a layer on top of a parent. Equal locators have
the same bytes in their paths. -/
inductive Locator where
  | root (layer : Layer)
  | push (parent : Locator) (layer : Layer)
  deriving DecidableEq

namespace Locator

/-- A base locator rooted at a directory of captured files. -/
def directory (path : Bytes) : Locator := .root (.directory path)

/-- A base locator rooted at a real file path. -/
def file (path : Bytes) : Locator := .root (.file path)

/-- The number of layers in the chain (the root counts as one). -/
def depth : Locator → Nat
  | .root _ => 1
  | .push parent _ => 1 + parent.depth

/-- The root locator of this chain. -/
def base : Locator → Locator
  | .root layer => .root layer
  | .push parent _ => parent.base

/-- The chain from root to this node, root first. -/
def layers : Locator → List Layer
  | .root layer => [layer]
  | .push parent layer => parent.layers ++ [layer]

@[simp] theorem layers_root (layer : Layer) : (root layer).layers = [layer] := rfl

@[simp] theorem layers_push (parent : Locator) (layer : Layer) :
    (push parent layer).layers = parent.layers ++ [layer] := rfl

theorem layers_ne_nil (loc : Locator) : loc.layers ≠ [] := by
  cases loc <;> simp

/-- A locator is its chain of layers. -/
theorem layers_injective {a b : Locator} (h : a.layers = b.layers) : a = b := by
  have notRoot : ∀ (parent : Locator) (l l' : Layer), parent.layers ++ [l] ≠ [l'] := by
    intro parent l l' e
    have hpos := List.length_pos_iff.mpr (layers_ne_nil parent)
    have hlen := congrArg List.length e
    simp only [List.length_append, List.length_singleton] at hlen
    omega
  induction a generalizing b with
  | root layer =>
    cases b with
    | root layer' => simpa using h
    | push parent' layer' => exact absurd h.symm (notRoot parent' layer' layer)
  | push parent layer ih =>
    cases b with
    | root layer' => exact absurd h (notRoot parent layer layer')
    | push parent' layer' =>
      obtain ⟨hp, hl⟩ := List.append_inj' h rfl
      rw [ih hp, List.head_eq_of_cons_eq hl]

/-- Extend the chain by several layers, the outermost first. -/
def pushAll (loc : Locator) (ls : List Layer) : Locator := ls.foldl .push loc

@[simp] theorem pushAll_nil (loc : Locator) : loc.pushAll [] = loc := rfl

@[simp] theorem pushAll_cons (loc : Locator) (l : Layer) (ls : List Layer) :
    loc.pushAll (l :: ls) = (loc.push l).pushAll ls := rfl

theorem pushAll_append (loc : Locator) (ls ks : List Layer) :
    loc.pushAll (ls ++ ks) = (loc.pushAll ls).pushAll ks :=
  List.foldl_append

@[simp] theorem layers_pushAll (loc : Locator) (ls : List Layer) :
    (loc.pushAll ls).layers = loc.layers ++ ls := by
  induction ls generalizing loc with
  | nil => simp
  | cons l ls ih => simp [ih]

theorem depth_eq_length (loc : Locator) : loc.depth = loc.layers.length := by
  induction loc with
  | root layer => rfl
  | push parent layer ih => rw [depth, ih, layers_push, List.length_append, Nat.add_comm]; rfl

@[simp] theorem depth_pushAll (loc : Locator) (ls : List Layer) :
    (loc.pushAll ls).depth = loc.depth + ls.length := by
  rw [depth_eq_length, depth_eq_length, layers_pushAll, List.length_append]

@[simp] theorem base_pushAll (loc : Locator) (ls : List Layer) :
    (loc.pushAll ls).base = loc.base := by
  induction ls generalizing loc with
  | nil => rfl
  | cons l ls ih => rw [pushAll_cons, ih, base]

/-- One chain goes on as another exactly when its layers do. -/
theorem exists_pushAll_iff {a b : Locator} :
    (∃ ls, b = a.pushAll ls) ↔ a.layers <+: b.layers := by
  constructor
  · rintro ⟨ls, rfl⟩
    exact ⟨ls, (layers_pushAll a ls).symm⟩
  · rintro ⟨ls, hls⟩
    exact ⟨ls, layers_injective (by rw [layers_pushAll, hls])⟩

/-- The layers a locator was extended by can be read off it. -/
theorem pushAll_injective (loc : Locator) : Function.Injective loc.pushAll := by
  intro ls ks h
  have hlayers := congrArg layers h
  rw [layers_pushAll, layers_pushAll] at hlayers
  exact List.append_cancel_left hlayers

end Locator

end ForensicVfs
