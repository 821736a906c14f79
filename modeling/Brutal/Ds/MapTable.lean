import Brutal.Base.Debug
import Brutal.Ds.Map
import Brutal.Lib.Memory
import Mathlib.Data.Finset.Card
import Mathlib.Data.List.Induction
import Mathlib.Logic.Function.Basic

/-!
# The nodes of maps

`libs/brutal-ds/map.c` finds a key by its hash: the hash says in which of the buckets its node is,
and the nodes of a bucket are compared one after the other.  A node is one block of memory, with the
bytes of its key behind the header and the value behind the key.

All nodes of all buckets together are the list that `Ds/Map` has for a map.
-/

namespace Brutal.Ds

open Base Lib

/-- `MapNode`, with the memory of its block and the place of its value in there. -/
structure MapNode where
  hash : UInt32
  data : ℕ
  keyLen : ℕ
  block : ℕ → UInt8

/-- `sizeof(MapNode)`, which is where the bytes of the key start. -/
def mapNodeHeader : ℕ := 24

/-- `align_up$(len, 16)` -/
def alignKey (len : ℕ) : ℕ := (len + 15) / 16 * 16

/-- The key of a node, as in `str$(&node->key)`. -/
def MapNode.key (node : MapNode) : List UInt8 := readAt node.block mapNodeHeader node.keyLen

/-- The value of a node. -/
def MapNode.value (node : MapNode) (dataSize : ℕ) : List UInt8 :=
  readAt node.block node.data dataSize

/-- Where the value of a key of this length is, behind the key. -/
def valueStart (keyLen : ℕ) : ℕ := mapNodeHeader + alignKey keyLen

/-- `map_node_create` with the memory of the new block, whose size is an `int`. -/
def mapNodeCreate (memory : ℕ → UInt8) (key data : List UInt8) : Except Fault MapNode :=
  if valueStart key.length + data.length < 2 ^ 31 then
    .ok
      { hash := mapHash key
        data := valueStart key.length
        keyLen := key.length
        block := writeAt (writeAt memory mapNodeHeader key) (valueStart key.length) data }
  else .error .overflow

/-- `MapImpl` -/
structure MapImpl where
  buckets : ℕ → List MapNode
  dataSize : ℕ

/-- `map_init_impl` -/
def mapInit (dataSize : ℕ) : MapImpl := ⟨fun _ ↦ [], dataSize⟩

/-- `map_node`, with the place of the node in its bucket. -/
def mapNode (impl : MapImpl) (key : List UInt8) (hash : UInt32) : Option ℕ :=
  (impl.buckets (hash.toNat % mapBucketCount)).findIdx? fun node ↦
    node.hash = hash && key = node.key

/-- `vec_push` to a bucket, which doubles the capacity; its size in bytes is an `int`. -/
def bucketPush (bucket : List MapNode) (node : MapNode) : Except Fault (List MapNode) :=
  if bucket.length < 2 ^ 27 then .ok (bucket ++ [node]) else .error .overflow

/-- `mem_cpy` to the value of a node. -/
def MapNode.setValue (data : List UInt8) (node : MapNode) : MapNode :=
  { node with block := writeAt node.block node.data data }

/-- The map with other nodes in one bucket. -/
def MapImpl.setBucket (impl : MapImpl) (b : ℕ) (nodes : List MapNode) : MapImpl :=
  { impl with buckets := Function.update impl.buckets b nodes }

/-- `map_put_impl` with the memory of the block that a new node gets. -/
def mapPutImpl (impl : MapImpl) (memory : ℕ → UInt8) (key data : List UInt8) :
    Except Fault MapImpl :=
  let hash := mapHash key
  let bucket := hash.toNat % mapBucketCount
  match mapNode impl key hash with
  | some i =>
    .ok (impl.setBucket bucket ((impl.buckets bucket).modify i (MapNode.setValue data)))
  | none => do
    let node ← mapNodeCreate memory key data
    let nodes ← bucketPush (impl.buckets bucket) node
    return impl.setBucket bucket nodes

/-- `map_get_impl`, with the value that is copied if the key is there. -/
def mapGetImpl (impl : MapImpl) (key : List UInt8) : Option (List UInt8) :=
  let hash := mapHash key
  match mapNode impl key hash with
  | some i =>
    (impl.buckets (hash.toNat % mapBucketCount))[i]?.map fun node ↦ node.value impl.dataSize
  | none => none

theorem le_alignKey (len : ℕ) : len ≤ alignKey len := by
  rw [alignKey]
  omega

/-- The hash of a node is that of its key, and its value is behind the key. -/
structure MapNode.Valid (node : MapNode) : Prop where
  hash : node.hash = mapHash node.key
  data : node.data = valueStart node.keyLen

section Node

variable {node : MapNode} {memory : ℕ → UInt8} {key data : List UInt8}

theorem MapNode.Valid.key_setValue (h : node.Valid) (data : List UInt8) :
    (node.setValue data).key = node.key := by
  have hle : mapNodeHeader + node.keyLen ≤ node.data := by
    rw [h.data, valueStart]
    exact Nat.add_le_add_left (le_alignKey node.keyLen) _
  exact readAt_writeAt_apart (Or.inl hle)

theorem MapNode.Valid.setValue (h : node.Valid) (data : List UInt8) : (node.setValue data).Valid :=
  ⟨by rw [h.key_setValue]; exact h.hash, h.data⟩

theorem value_setValue (node : MapNode) (data : List UInt8) :
    (node.setValue data).value data.length = data := readAt_writeAt ..

/-- A new node has the key and the value. -/
theorem mapNodeCreate_spec (h : mapNodeCreate memory key data = .ok node) :
    node.Valid ∧ node.key = key ∧ node.value data.length = data := by
  rw [mapNodeCreate] at h
  split at h
  next =>
    cases h
    have hle := le_alignKey key.length
    have hkey : readAt (writeAt (writeAt memory mapNodeHeader key) (valueStart key.length) data)
        mapNodeHeader key.length = key := by
      rw [readAt_writeAt_apart (by rw [valueStart]; omega), readAt_writeAt]
    exact ⟨⟨by rw [MapNode.key, hkey], rfl⟩, hkey, readAt_writeAt ..⟩
  next => cases h

end Node

/-- All nodes of a map, in the order of `map_foreach`. -/
def mapNodes (impl : MapImpl) : List MapNode := (List.range mapBucketCount).flatMap impl.buckets

/-- The keys and values of a map, in the order of `map_foreach`. -/
def mapEntries (impl : MapImpl) : List (List UInt8 × List UInt8) :=
  (mapNodes impl).map fun node ↦ (node.key, node.value impl.dataSize)

/-- Every node is in the bucket of its key, and every key is there once. -/
structure MapTable (impl : MapImpl) : Prop where
  valid : ∀ b < mapBucketCount, ∀ node ∈ impl.buckets b, node.Valid
  placed : ∀ b < mapBucketCount, ∀ node ∈ impl.buckets b, mapBucket node.key = b
  nodup : ((mapNodes impl).map MapNode.key).Nodup

section Table

variable {impl impl' : MapImpl} {key data : List UInt8}

theorem mapBucket_lt (key : List UInt8) : mapBucket key < mapBucketCount :=
  Nat.mod_lt _ (by decide)

theorem mem_mapNodes {node : MapNode} :
    node ∈ mapNodes impl ↔ ∃ b < mapBucketCount, node ∈ impl.buckets b := by
  simp only [mapNodes, List.mem_flatMap, List.mem_range]

theorem MapTable.mem_bucket (h : MapTable impl) {node : MapNode} (hnode : node ∈ mapNodes impl) :
    node ∈ impl.buckets (mapBucket node.key) := by
  obtain ⟨b, hb, hmem⟩ := mem_mapNodes.mp hnode
  rwa [h.placed b hb node hmem]

/-- The nodes of a map, cut in front of and behind one bucket. -/
theorem mapNodes_split (impl : MapImpl) {b : ℕ} (hb : b < mapBucketCount) :
    mapNodes impl = (List.range b).flatMap impl.buckets ++ (impl.buckets b ++
      (List.range' (b + 1) (mapBucketCount - (b + 1))).flatMap impl.buckets) := by
  have hrange : List.range mapBucketCount =
      List.range b ++ b :: List.range' (b + 1) (mapBucketCount - (b + 1)) := by
    rw [List.range_eq_range', List.range_eq_range', ← List.range'_succ,
      show mapBucketCount = b + (mapBucketCount - b) by omega, ← List.range'_append_1, Nat.zero_add]
    congr 2
    omega
  rw [mapNodes, hrange, List.flatMap_append, List.flatMap_cons]

theorem MapTable.nodup_bucket (h : MapTable impl) {b : ℕ} (hb : b < mapBucketCount) :
    ((impl.buckets b).map MapNode.key).Nodup := by
  refine h.nodup.sublist (List.Sublist.map _ ?_)
  rw [mapNodes_split impl hb]
  exact (List.sublist_append_left ..).trans (List.sublist_append_right ..)

/-- Whatever its hash, a key is found in its bucket if it is there, and it is nowhere else. -/
theorem MapTable.mapNode_cases (h : MapTable impl) (key : List UInt8) :
    (∃ i node, mapNode impl key (mapHash key) = some i ∧
        (impl.buckets (mapBucket key))[i]? = some node ∧ node.key = key) ∨
      mapNode impl key (mapHash key) = none ∧ ∀ node ∈ mapNodes impl, node.key ≠ key := by
  cases hfind : mapNode impl key (mapHash key) with
  | some i =>
    obtain ⟨hi, hnode, -⟩ := List.findIdx?_eq_some_iff_getElem.mp hfind
    rw [Bool.and_eq_true, decide_eq_true_iff, decide_eq_true_iff] at hnode
    exact Or.inl ⟨i, _, rfl, List.getElem?_eq_getElem hi, hnode.2.symm⟩
  | none =>
    refine Or.inr ⟨rfl, fun node hnode hkey ↦ ?_⟩
    have hmem := h.mem_bucket hnode
    have hvalid := h.valid _ (mapBucket_lt _) node hmem
    rw [hkey] at hmem
    have hno := List.findIdx?_eq_none_iff.mp hfind node hmem
    rw [hvalid.hash, hkey] at hno
    simp at hno

/-- Changing the one item with a key is changing every item with that key. -/
theorem modify_eq_map {α β : Type} [DecidableEq β] {items : List α} {key : α → β}
    (h : (items.map key).Nodup) {i : ℕ} {item : α} (hi : items[i]? = some item) (f : α → α) :
    items.modify i f = items.map fun other ↦ if key other = key item then f other else other := by
  apply List.ext_getElem?
  intro j
  rw [List.getElem?_modify, List.getElem?_map]
  cases hj : items[j]? with
  | none => rfl
  | some other =>
    have hkeys : (items.map key)[i]? = some (key item) := by rw [List.getElem?_map, hi]; rfl
    have hkeysOther : (items.map key)[j]? = some (key other) := by rw [List.getElem?_map, hj]; rfl
    have hindex : i = j ↔ key other = key item := by
      constructor
      · rintro rfl
        rw [hi, Option.some.injEq] at hj
        rw [hj]
      · intro heq
        rw [heq, ← hkeys] at hkeysOther
        exact (List.getElem?_inj (List.getElem?_eq_some_iff.mp hkeys).1 h).mp hkeysOther.symm
    simp only [Option.map_eq_map, Option.map_some, hindex]

/-- The other buckets stay as they are. -/
theorem flatMap_update {buckets : ℕ → List MapNode} {b : ℕ} {nodes : List MapNode} {range : List ℕ}
    (h : b ∉ range) : range.flatMap (Function.update buckets b nodes) = range.flatMap buckets := by
  apply List.flatMap_congr
  intro other hother
  apply Function.update_of_ne
  rintro rfl
  exact h hother

theorem mapNodes_update (impl : MapImpl) {b : ℕ} (hb : b < mapBucketCount) (nodes : List MapNode) :
    mapNodes (impl.setBucket b nodes) =
      (List.range b).flatMap impl.buckets ++ (nodes ++
        (List.range' (b + 1) (mapBucketCount - (b + 1))).flatMap impl.buckets) := by
  rw [mapNodes_split _ hb, MapImpl.setBucket]
  dsimp only
  rw [flatMap_update (by rw [List.mem_range]; omega), Function.update_self,
    flatMap_update (by rw [List.mem_range'_1]; omega)]

/-- Writing over the value of a node. -/
theorem MapTable.mapNodes_setValue (h : MapTable impl) {i : ℕ} {node : MapNode}
    (hnode : (impl.buckets (mapBucket key))[i]? = some node) (hkey : node.key = key) :
    mapNodes (impl.setBucket (mapBucket key)
      ((impl.buckets (mapBucket key)).modify i (MapNode.setValue data))) =
        (mapNodes impl).map fun node ↦ if node.key = key then node.setValue data else node := by
  have hb := mapBucket_lt key
  have hsame : ∀ range : List ℕ, mapBucket key ∉ range → (∀ b ∈ range, b < mapBucketCount) →
      (range.flatMap impl.buckets).map
        (fun node ↦ if node.key = key then node.setValue data else node) =
          range.flatMap impl.buckets := by
    intro range hrange hlt
    refine (List.map_congr_left fun node hmem ↦ if_neg ?_).trans (List.map_id _)
    rintro rfl
    obtain ⟨b, hb, hmem⟩ := List.mem_flatMap.mp hmem
    rw [h.placed b (hlt b hb) node hmem] at hrange
    exact hrange hb
  rw [mapNodes_update _ hb, mapNodes_split impl hb, List.map_append, List.map_append,
    hsame _ (by rw [List.mem_range]; omega) (fun b hmem ↦ (List.mem_range.mp hmem).trans hb),
    hsame _ (by rw [List.mem_range'_1]; omega)
      (fun b hmem ↦ by rw [List.mem_range'_1] at hmem; omega),
    modify_eq_map (h.nodup_bucket hb) hnode, hkey]

theorem mem_setBucket {b other : ℕ} {nodes : List MapNode} {node : MapNode}
    (h : node ∈ (impl.setBucket b nodes).buckets other) :
    other = b ∧ node ∈ nodes ∨ node ∈ impl.buckets other := by
  rw [MapImpl.setBucket] at h
  dsimp only at h
  by_cases hother : other = b
  · rw [hother, Function.update_self] at h
    exact Or.inl ⟨hother, h⟩
  · rw [Function.update_of_ne hother] at h
    exact Or.inr h

/-- The value of a key that is there is replaced. -/
theorem MapTable.setValue (h : MapTable impl) {i : ℕ} {node : MapNode}
    (hnode : (impl.buckets (mapBucket key))[i]? = some node) (hkey : node.key = key)
    (hdata : data.length = impl.dataSize) :
    MapTable (impl.setBucket (mapBucket key)
        ((impl.buckets (mapBucket key)).modify i (MapNode.setValue data))) ∧
      mapEntries (impl.setBucket (mapBucket key)
        ((impl.buckets (mapBucket key)).modify i (MapNode.setValue data))) =
          mapPut (mapEntries impl) key data := by
  have hb := mapBucket_lt key
  have hvalid : ∀ node ∈ mapNodes impl, node.Valid := by
    intro node hnode
    obtain ⟨b, hb, hmem⟩ := mem_mapNodes.mp hnode
    exact h.valid b hb node hmem
  have hchange : ∀ node ∈ mapNodes impl,
      (if node.key = key then node.setValue data else node).key = node.key := by
    intro node hnode
    split
    · exact (hvalid node hnode).key_setValue data
    · rfl
  have hold : ∀ b < mapBucketCount, ∀ node ∈ (impl.setBucket (mapBucket key)
      ((impl.buckets (mapBucket key)).modify i (MapNode.setValue data))).buckets b,
        ∃ old ∈ impl.buckets b, node = old.setValue data ∨ node = old := by
    intro b _ node hmem
    rcases mem_setBucket hmem with ⟨rfl, hchanged⟩ | hsame
    · rw [modify_eq_map (h.nodup_bucket hb) hnode] at hchanged
      obtain ⟨old, hold, rfl⟩ := List.mem_map.mp hchanged
      refine ⟨old, hold, ?_⟩
      split
      · exact Or.inl rfl
      · exact Or.inr rfl
    · exact ⟨node, hsame, Or.inr rfl⟩
  refine ⟨⟨?_, ?_, ?_⟩, ?_⟩
  · intro b hb node hmem
    obtain ⟨old, holdMem, rfl | rfl⟩ := hold b hb node hmem
    · exact (h.valid b hb old holdMem).setValue data
    · exact h.valid b hb node holdMem
  · intro b hb node hmem
    obtain ⟨old, holdMem, rfl | rfl⟩ := hold b hb node hmem
    · rw [(h.valid b hb old holdMem).key_setValue]
      exact h.placed b hb old holdMem
    · exact h.placed b hb node holdMem
  · have hkeys : ((mapNodes impl).map fun node ↦ if node.key = key then node.setValue data
        else node).map MapNode.key = (mapNodes impl).map MapNode.key := by
      rw [List.map_map]
      exact List.map_congr_left hchange
    rw [h.mapNodes_setValue hnode hkey, hkeys]
    exact h.nodup
  · have hmem : key ∈ (mapEntries impl).map (·.1) := by
      rw [mapEntries, List.map_map]
      refine List.mem_map.mpr ⟨node, mem_mapNodes.mpr ⟨_, hb, ?_⟩, hkey⟩
      exact List.mem_of_getElem? hnode
    rw [mapPut_of_mem hmem, mapEntries, mapEntries, h.mapNodes_setValue hnode hkey, List.map_map,
      List.map_map]
    apply List.map_congr_left
    intro other hother
    dsimp only [Function.comp_apply, MapImpl.setBucket]
    rw [hchange other hother]
    split
    next hsame => rw [hsame, ← hdata, value_setValue]
    next => rfl

/-- A node for a new key goes to the end of its bucket. -/
theorem MapTable.push (h : MapTable impl) {node : MapNode} (hvalid : node.Valid)
    (hkey : node.key = key) (hdata : node.value impl.dataSize = data)
    (hnew : ∀ node ∈ mapNodes impl, node.key ≠ key) :
    MapTable (impl.setBucket (mapBucket key) (impl.buckets (mapBucket key) ++ [node])) ∧
      mapEntries (impl.setBucket (mapBucket key) (impl.buckets (mapBucket key) ++ [node])) =
        mapPut (mapEntries impl) key data := by
  have hb := mapBucket_lt key
  have hnodes : mapNodes (impl.setBucket (mapBucket key)
      (impl.buckets (mapBucket key) ++ [node])) =
        ((List.range (mapBucket key)).flatMap impl.buckets ++ impl.buckets (mapBucket key)) ++
          node :: (List.range' (mapBucket key + 1)
            (mapBucketCount - (mapBucket key + 1))).flatMap impl.buckets := by
    rw [mapNodes_update _ hb]
    simp only [List.append_assoc, List.singleton_append]
  have hsplit := mapNodes_split impl hb
  rw [← List.append_assoc] at hsplit
  refine ⟨⟨?_, ?_, ?_⟩, ?_⟩
  · intro b hb other hmem
    rcases mem_setBucket hmem with ⟨rfl, hbucket⟩ | hold
    · rcases List.mem_append.mp hbucket with hold | hlast
      · exact h.valid _ hb other hold
      · rwa [List.mem_singleton.mp hlast]
    · exact h.valid b hb other hold
  · intro b hb other hmem
    rcases mem_setBucket hmem with ⟨rfl, hbucket⟩ | hold
    · rcases List.mem_append.mp hbucket with hold | hlast
      · exact h.placed _ hb other hold
      · rw [List.mem_singleton.mp hlast, hkey]
    · exact h.placed b hb other hold
  · have hnodup := h.nodup
    rw [hsplit] at hnodup
    rw [hnodes, (List.perm_middle.map MapNode.key).nodup_iff, List.map_cons, List.nodup_cons,
      hkey]
    refine ⟨fun hmem ↦ ?_, hnodup⟩
    rw [← hsplit] at hmem
    obtain ⟨other, hother, heq⟩ := List.mem_map.mp hmem
    exact hnew other hother heq
  · have hnot : key ∉ (mapEntries impl).map (·.1) := by
      rw [mapEntries, List.map_map]
      rintro hmem
      obtain ⟨other, hother, heq⟩ := List.mem_map.mp hmem
      exact hnew other hother heq
    rw [mapEntries, hsplit, List.map_append] at hnot
    have hput := mapPut_between hnot ?_ ?_ data
    · rw [mapEntries, mapEntries, hnodes, hsplit, @List.map_append _ _ _ _ (_ :: _), List.map_cons,
        @List.map_append _ _ _ (_ ++ _) (List.flatMap _ _), hput, ← hkey, ← hdata]
      rfl
    · rw [List.forall_mem_map]
      intro other hother
      rcases List.mem_append.mp hother with hother | hother
      · obtain ⟨b, hrange, hmem⟩ := List.mem_flatMap.mp hother
        have hlt := List.mem_range.mp hrange
        rw [h.placed b (hlt.trans hb) other hmem]
        exact hlt.le
      · exact (h.placed _ hb other hother).le
    · rw [List.forall_mem_map]
      intro other hother
      obtain ⟨b, hrange, hmem⟩ := List.mem_flatMap.mp hother
      rw [List.mem_range'_1] at hrange
      rw [h.placed b (by omega) other hmem]
      exact hrange.1

end Table

/-! ## Calls -/

variable {dataSize : ℕ}

/-- A call of `map_put`, with the memory of the block that a new node gets, or of `map_get`. -/
inductive MapCall (dataSize : ℕ) where
  | put (key : List UInt8) (data : Vector UInt8 dataSize) (memory : ℕ → UInt8)
  | get (key : List UInt8)

/-- The calls one after the other, with what every `map_get` gives. -/
def mapCalls (impl : MapImpl) :
    List (MapCall dataSize) → Except Fault (List (Option (List UInt8)) × MapImpl)
  | [] => .ok ([], impl)
  | .put key data memory :: calls => do
    let impl ← mapPutImpl impl memory key data.toList
    mapCalls impl calls
  | .get key :: calls => do
    let (answers, after) ← mapCalls impl calls
    return (mapGetImpl impl key :: answers, after)

/-- The value in the last `map_put` of a key. -/
def lastPut (calls : List (MapCall dataSize)) (key : List UInt8) : Option (List UInt8) :=
  calls.foldl (fun found call ↦
    match call with
    | .put other data _ => if other = key then some data.toList else found
    | .get _ => found) none

/-- What every `map_get` of some calls has to give behind other calls. -/
def lastPuts (before : List (MapCall dataSize)) :
    List (MapCall dataSize) → List (Option (List UInt8))
  | [] => []
  | .put key data memory :: calls => lastPuts (before ++ [.put key data memory]) calls
  | .get key :: calls => lastPut before key :: lastPuts (before ++ [.get key]) calls

/-- The keys that are put. -/
def putKeys (calls : List (MapCall dataSize)) : List (List UInt8) :=
  calls.filterMap fun call ↦
    match call with
    | .put key _ _ => some key
    | .get _ => none

/-- The different keys of one bucket that are put. -/
def putKeysIn (calls : List (MapCall dataSize)) (b : ℕ) : Finset (List UInt8) :=
  {key ∈ (putKeys calls).toFinset | mapBucket key = b}

/-- The nodes of the keys that are put have sizes that are an `int`, and so have the arrays of the
buckets. -/
structure PutsFit (calls : List (MapCall dataSize)) : Prop where
  nodes : ∀ key ∈ putKeys calls, valueStart key.length + dataSize < 2 ^ 31
  buckets : ∀ b < mapBucketCount, (putKeysIn calls b).card ≤ 2 ^ 27

/-- The map holds the values in the last puts of all keys. -/
structure Holds (impl : MapImpl) (calls : List (MapCall dataSize)) : Prop where
  table : MapTable impl
  dataSize_eq : impl.dataSize = dataSize
  entries : ∀ key value, (key, value) ∈ mapEntries impl ↔ lastPut calls key = some value

section Calls

variable {impl impl' : MapImpl} {calls before : List (MapCall dataSize)} {key : List UInt8}

theorem lastPut_put (calls : List (MapCall dataSize)) (key other : List UInt8)
    (data : Vector UInt8 dataSize) (memory : ℕ → UInt8) :
    lastPut (calls ++ [.put key data memory]) other =
      if key = other then some data.toList else lastPut calls other := by
  rw [lastPut, List.foldl_append]
  rfl

theorem lastPut_get (calls : List (MapCall dataSize)) (key other : List UInt8) :
    lastPut (calls ++ [.get key]) other = lastPut calls other := by
  rw [lastPut, List.foldl_append]
  rfl

theorem putKeys_put (calls : List (MapCall dataSize)) (key : List UInt8)
    (data : Vector UInt8 dataSize) (memory : ℕ → UInt8) :
    putKeys (calls ++ [.put key data memory]) = putKeys calls ++ [key] := by
  rw [putKeys, List.filterMap_append]
  rfl

theorem putKeys_get (calls : List (MapCall dataSize)) (key : List UInt8) :
    putKeys (calls ++ [.get key]) = putKeys calls := by
  rw [putKeys, List.filterMap_append]
  exact List.append_nil _

theorem lastPut_isSome_iff (calls : List (MapCall dataSize)) (key : List UInt8) :
    (∃ value, lastPut calls key = some value) ↔ key ∈ putKeys calls := by
  induction calls using List.reverseRecOn with
  | nil => simp [lastPut, putKeys]
  | append_singleton calls call ih =>
    cases call with
    | put other data memory =>
      rw [lastPut_put, putKeys_put, List.mem_append, List.mem_singleton, ← ih]
      split
      next heq => exact ⟨fun _ ↦ Or.inr heq.symm, fun _ ↦ ⟨_, rfl⟩⟩
      next hne => exact (or_iff_left fun heq ↦ hne heq.symm).symm
    | get other => rw [lastPut_get, putKeys_get, ih]

theorem PutsFit.of_append (h : PutsFit (before ++ calls)) : PutsFit before := by
  have hsubset : putKeys before ⊆ putKeys (before ++ calls) := by
    rw [putKeys, putKeys, List.filterMap_append]
    exact List.subset_append_left ..
  refine ⟨fun key hkey ↦ h.nodes key (hsubset hkey), fun b hb ↦ ?_⟩
  refine le_trans (Finset.card_le_card ?_) (h.buckets b hb)
  apply Finset.filter_subset_filter
  intro key hkey
  exact List.mem_toFinset.mpr (hsubset (List.mem_toFinset.mp hkey))

/-- The keys of the nodes are those that were put. -/
theorem Holds.mem_keys (h : Holds impl calls) (key : List UInt8) :
    key ∈ (mapNodes impl).map MapNode.key ↔ key ∈ putKeys calls := by
  rw [← lastPut_isSome_iff, List.mem_map]
  constructor
  · rintro ⟨node, hnode, rfl⟩
    exact ⟨_, (h.entries _ _).mp (List.mem_map.mpr ⟨node, hnode, rfl⟩)⟩
  · rintro ⟨value, hvalue⟩
    obtain ⟨node, hnode, heq⟩ := List.mem_map.mp ((h.entries key value).mpr hvalue)
    exact ⟨node, hnode, congrArg Prod.fst heq⟩

/-- A bucket has a node for every key of the bucket that was put. -/
theorem Holds.length_bucket (h : Holds impl calls) {b : ℕ} (hb : b < mapBucketCount) :
    (impl.buckets b).length = (putKeysIn calls b).card := by
  have hkeys : ((impl.buckets b).map MapNode.key).toFinset = putKeysIn calls b := by
    ext key
    rw [List.mem_toFinset, putKeysIn, Finset.mem_filter, List.mem_toFinset, ← h.mem_keys,
      List.mem_map, List.mem_map]
    constructor
    · rintro ⟨node, hnode, rfl⟩
      exact ⟨⟨node, mem_mapNodes.mpr ⟨b, hb, hnode⟩, rfl⟩, h.table.placed b hb node hnode⟩
    · rintro ⟨⟨node, hnode, rfl⟩, rfl⟩
      exact ⟨node, h.table.mem_bucket hnode, rfl⟩
  rw [← hkeys, List.toFinset_card_of_nodup (h.table.nodup_bucket hb), List.length_map]

/-- `map_get` gives the value of the last put. -/
theorem Holds.mapGetImpl_eq (h : Holds impl calls) (key : List UInt8) :
    mapGetImpl impl key = lastPut calls key := by
  rw [mapGetImpl]
  rcases h.table.mapNode_cases key with ⟨i, node, hfind, hnode, hkey⟩ | ⟨hfind, hnone⟩
  · have hmem : node ∈ mapNodes impl :=
      mem_mapNodes.mpr ⟨_, mapBucket_lt key, List.mem_of_getElem? hnode⟩
    have hentry := (h.entries _ _).mp (List.mem_map.mpr ⟨node, hmem, rfl⟩)
    rw [hkey] at hentry
    rw [hfind, hentry]
    exact congrArg (Option.map fun node ↦ node.value impl.dataSize) hnode
  · rw [hfind]
    cases hlast : lastPut calls key with
    | none => rfl
    | some value =>
      obtain ⟨node, hnode, heq⟩ := List.mem_map.mp ((h.entries key value).mpr hlast)
      exact absurd (congrArg Prod.fst heq) (hnone node hnode)

theorem holds_put {data : Vector UInt8 dataSize} {memory : ℕ → UInt8} (h : Holds impl calls)
    (htable : MapTable impl') (hsize : impl'.dataSize = impl.dataSize)
    (hentries : mapEntries impl' = mapPut (mapEntries impl) key data.toList) :
    Holds impl' (calls ++ [.put key data memory]) := by
  refine ⟨htable, hsize.trans h.dataSize_eq, fun other value ↦ ?_⟩
  rw [hentries, mem_mapPut_iff, lastPut_put, h.entries, Prod.mk.injEq]
  by_cases hkey : key = other
  · rw [if_pos hkey, Option.some.injEq, hkey]
    exact ⟨fun hor ↦ (hor.resolve_right fun hboth ↦ hboth.1 rfl).2.symm,
      fun heq ↦ Or.inl ⟨rfl, heq.symm⟩⟩
  · rw [if_neg hkey]
    exact ⟨fun hor ↦ (hor.resolve_left fun hboth ↦ hkey hboth.1.symm).2,
      fun hvalue ↦ Or.inr ⟨Ne.symm hkey, hvalue⟩⟩

/-- A put that succeeds leaves a map that holds the new value, too. -/
theorem Holds.put {data : Vector UInt8 dataSize} {memory : ℕ → UInt8} (h : Holds impl calls)
    (hcall : mapPutImpl impl memory key data.toList = .ok impl') :
    Holds impl' (calls ++ [.put key data memory]) := by
  have hdata : data.toList.length = impl.dataSize := by rw [Vector.length_toList, h.dataSize_eq]
  rw [mapPutImpl] at hcall
  rcases h.table.mapNode_cases key with ⟨i, node, hfind, hnode, hkey⟩ | ⟨hfind, hnone⟩
  · rw [hfind] at hcall
    cases hcall
    obtain ⟨htable, hentries⟩ := h.table.setValue hnode hkey hdata
    exact holds_put h htable rfl hentries
  · rw [hfind] at hcall
    obtain ⟨node, hcreate, hcall⟩ := bind_eq_ok.mp hcall
    obtain ⟨nodes, hpush, hcall⟩ := bind_eq_ok.mp hcall
    obtain ⟨hvalid, hkey, hvalue⟩ := mapNodeCreate_spec hcreate
    rw [bucketPush] at hpush
    split at hpush
    next =>
      cases hpush
      cases hcall
      rw [hdata] at hvalue
      obtain ⟨htable, hentries⟩ := h.table.push hvalid hkey hvalue hnone
      exact holds_put h htable rfl hentries
    next => cases hpush

theorem putKeysIn_put (calls : List (MapCall dataSize)) (key : List UInt8)
    (data : Vector UInt8 dataSize) (memory : ℕ → UInt8) (b : ℕ) :
    putKeysIn (calls ++ [.put key data memory]) b =
      if mapBucket key = b then insert key (putKeysIn calls b) else putKeysIn calls b := by
  rw [putKeysIn, putKeys_put, List.toFinset_append, Finset.filter_union, putKeysIn]
  split
  next hb => simp [Finset.filter_singleton, hb, Finset.union_comm]
  next hb => simp [Finset.filter_singleton, hb]

/-- A put succeeds if and only if the sizes that it takes are an `int`. -/
theorem Holds.put_ok_iff {data : Vector UInt8 dataSize} {memory : ℕ → UInt8} (h : Holds impl calls)
    (hfits : PutsFit calls) :
    (∃ impl', mapPutImpl impl memory key data.toList = .ok impl') ↔
      PutsFit (calls ++ [.put key data memory]) := by
  have hb := mapBucket_lt key
  rcases h.table.mapNode_cases key with ⟨i, node, hfind, hnode, hkey⟩ | ⟨hfind, hnone⟩
  · -- The key has a node already.
    have hmem : key ∈ putKeys calls := by
      rw [← h.mem_keys, ← hkey]
      exact List.mem_map_of_mem (mem_mapNodes.mpr ⟨_, hb, List.mem_of_getElem? hnode⟩)
    have hput : ∃ impl', mapPutImpl impl memory key data.toList = .ok impl' := by
      rw [mapPutImpl, hfind]
      exact ⟨_, rfl⟩
    refine ⟨fun _ ↦ ⟨?_, fun b hb ↦ ?_⟩, fun _ ↦ hput⟩
    · rw [putKeys_put, List.forall_mem_append, List.forall_mem_singleton]
      exact ⟨hfits.nodes, hfits.nodes key hmem⟩
    · rw [putKeysIn_put]
      split
      next hkeyBucket =>
        rw [Finset.insert_eq_of_mem]
        · exact hfits.buckets b hb
        · exact Finset.mem_filter.mpr ⟨List.mem_toFinset.mpr hmem, hkeyBucket⟩
      next => exact hfits.buckets b hb
  · -- The key gets a new node.
    have hnot : key ∉ putKeys calls := by
      rw [← h.mem_keys, List.mem_map]
      rintro ⟨node, hnode, hkey⟩
      exact hnone node hnode hkey
    have hnotIn : key ∉ putKeysIn calls (mapBucket key) := fun hmem ↦
      hnot (List.mem_toFinset.mp (Finset.mem_filter.mp hmem).1)
    have hput : (∃ impl', mapPutImpl impl memory key data.toList = .ok impl') ↔
        valueStart key.length + dataSize < 2 ^ 31 ∧
          (impl.buckets (mapBucket key)).length < 2 ^ 27 := by
      rw [mapPutImpl, hfind]
      constructor
      · rintro ⟨impl', hcall⟩
        obtain ⟨node, hcreate, hcall⟩ := bind_eq_ok.mp hcall
        obtain ⟨nodes, hpush, -⟩ := bind_eq_ok.mp hcall
        rw [mapNodeCreate, Vector.length_toList] at hcreate
        rw [bucketPush] at hpush
        split at hcreate
        next hnode =>
          split at hpush
          next hbucket => exact ⟨hnode, hbucket⟩
          next => cases hpush
        next => cases hcreate
      · rintro ⟨hnode, hbucket⟩
        rw [← data.length_toList] at hnode
        exact ⟨_, bind_eq_ok.mpr ⟨_, if_pos hnode, bind_eq_ok.mpr ⟨_, if_pos hbucket, rfl⟩⟩⟩
    rw [hput, h.length_bucket hb]
    constructor
    · rintro ⟨hnode, hbucket⟩
      refine ⟨?_, fun b hb ↦ ?_⟩
      · rw [putKeys_put, List.forall_mem_append, List.forall_mem_singleton]
        exact ⟨hfits.nodes, hnode⟩
      · rw [putKeysIn_put]
        split
        next hkeyBucket =>
          rw [← hkeyBucket, Finset.card_insert_of_notMem hnotIn]
          exact hbucket
        next => exact hfits.buckets b hb
    · intro hfits'
      have hbucket := hfits'.buckets _ hb
      rw [putKeysIn_put, if_pos rfl, Finset.card_insert_of_notMem hnotIn] at hbucket
      refine ⟨hfits'.nodes key ?_, hbucket⟩
      rw [putKeys_put]
      exact List.mem_append_right _ (List.mem_singleton_self key)

theorem holds_mapInit : Holds (mapInit dataSize) ([] : List (MapCall dataSize)) := by
  have hnodes : mapNodes (mapInit dataSize) = [] := by
    rw [mapNodes, List.flatMap_eq_nil_iff]
    exact fun _ _ ↦ rfl
  refine ⟨⟨fun b _ node hnode ↦ ?_, fun b _ node hnode ↦ ?_, ?_⟩, rfl, fun key value ↦ ?_⟩
  · cases hnode
  · cases hnode
  · rw [hnodes]
    exact List.nodup_nil
  · rw [mapEntries, hnodes]
    exact ⟨fun hmem ↦ absurd hmem List.not_mem_nil, fun hvalue ↦ by cases hvalue⟩

theorem putsFit_nil : PutsFit ([] : List (MapCall dataSize)) := by
  refine ⟨fun key hkey ↦ absurd hkey List.not_mem_nil, fun b _ ↦ ?_⟩
  exact le_trans (Finset.card_filter_le _ _) (Nat.zero_le _)

/-- Calls behind others succeed if and only if the sizes are an `int`, and then every `map_get`
gives the value in the last put, and the map holds those of all. -/
theorem Holds.mapCalls (h : Holds impl before) (hfits : PutsFit before)
    (calls : List (MapCall dataSize)) :
    ((∃ result, mapCalls impl calls = .ok result) ↔ PutsFit (before ++ calls)) ∧
      ∀ answers after, mapCalls impl calls = .ok (answers, after) →
        answers = lastPuts before calls ∧ Holds after (before ++ calls) := by
  induction calls generalizing impl before with
  | nil =>
    rw [List.append_nil]
    refine ⟨⟨fun _ ↦ hfits, fun _ ↦ ⟨_, rfl⟩⟩, fun answers after hcall ↦ ?_⟩
    cases hcall
    exact ⟨rfl, h⟩
  | cons call calls ih =>
    rw [← List.singleton_append, ← List.append_assoc]
    cases call with
    | put key data memory =>
      constructor
      · constructor
        · rintro ⟨result, hcall⟩
          obtain ⟨impl', hput, hcall⟩ := bind_eq_ok.mp hcall
          have hfits' := (h.put_ok_iff hfits).mp ⟨impl', hput⟩
          exact (ih (h.put hput) hfits').1.mp ⟨result, hcall⟩
        · intro hall
          have hfits' := hall.of_append
          obtain ⟨impl', hput⟩ := (@Holds.put_ok_iff _ _ _ _ _ memory h hfits).mpr hfits'
          obtain ⟨result, hcall⟩ := (ih (h.put hput) hfits').1.mpr hall
          exact ⟨result, bind_eq_ok.mpr ⟨impl', hput, hcall⟩⟩
      · intro answers after hcall
        obtain ⟨impl', hput, hcall⟩ := bind_eq_ok.mp hcall
        exact (ih (h.put hput) ((h.put_ok_iff hfits).mp ⟨impl', hput⟩)).2 answers after hcall
    | get key =>
      have hget : Holds impl (before ++ [.get key]) := by
        refine ⟨h.table, h.dataSize_eq, fun other value ↦ ?_⟩
        rw [lastPut_get]
        exact h.entries other value
      have hfits' : PutsFit (before ++ [.get key]) := by
        refine ⟨fun other hother ↦ ?_, fun b hb ↦ ?_⟩
        · rw [putKeys_get] at hother
          exact hfits.nodes other hother
        · rw [putKeysIn, putKeys_get]
          exact hfits.buckets b hb
      obtain ⟨hok, hresult⟩ := ih hget hfits'
      constructor
      · rw [← hok]
        constructor
        · rintro ⟨result, hcall⟩
          obtain ⟨result, hcall, -⟩ := bind_eq_ok.mp hcall
          exact ⟨result, hcall⟩
        · rintro ⟨result, hcall⟩
          exact ⟨_, bind_eq_ok.mpr ⟨result, hcall, rfl⟩⟩
      · intro answers after hcall
        obtain ⟨⟨rest, final⟩, hcall, heq⟩ := bind_eq_ok.mp hcall
        cases heq
        obtain ⟨hrest, hafter⟩ := hresult _ _ hcall
        refine ⟨?_, hafter⟩
        rw [h.mapGetImpl_eq, hrest]
        rfl

/-- Every `map_get` gives the value in the last put of its key, if there is one, and in the end
there is one node for every key that was put and none for another. -/
structure ActsAsMap (calls : List (MapCall dataSize))
    (result : List (Option (List UInt8)) × MapImpl) : Prop where
  answers : result.1 = lastPuts [] calls
  nodes : ∀ key, (mapNodes result.2).countP (fun node ↦ node.key = key) =
    if key ∈ putKeys calls then 1 else 0

/-- A new map acts as a map if and only if the sizes of its nodes and buckets are an `int`. -/
theorem mapCalls_actsAsMap_iff (calls : List (MapCall dataSize)) :
    (∃ result, Ds.mapCalls (mapInit dataSize) calls = .ok result ∧ ActsAsMap calls result) ↔
      PutsFit calls := by
  obtain ⟨hok, hresult⟩ := holds_mapInit.mapCalls putsFit_nil calls
  rw [List.nil_append] at hok hresult
  rw [← hok]
  refine ⟨fun ⟨result, hcall, _⟩ ↦ ⟨result, hcall⟩, fun ⟨⟨answers, after⟩, hcall⟩ ↦ ?_⟩
  obtain ⟨hanswers, hafter⟩ := hresult answers after hcall
  refine ⟨_, hcall, hanswers, fun key ↦ ?_⟩
  have hcount : (mapNodes after).countP (fun node ↦ node.key = key) =
      ((mapNodes after).map MapNode.key).count key := by
    rw [List.count, List.countP_map]
    apply List.countP_congr
    intro node _
    rw [Function.comp_apply, decide_eq_true_iff, beq_iff_eq]
  rw [hcount, hafter.table.nodup.count]
  simp only [hafter.mem_keys]

/-- A key whose node is too large cannot be put. -/
theorem mapCalls_long {key : List UInt8} {data : Vector UInt8 dataSize} {memory : ℕ → UInt8}
    (hlarge : ¬ valueStart key.length + dataSize < 2 ^ 31)
    (result : List (Option (List UInt8)) × MapImpl) :
    Ds.mapCalls (mapInit dataSize) [.put key data memory] ≠ .ok result := by
  intro hcall
  have hfits := (holds_mapInit.mapCalls putsFit_nil _).1.mp ⟨result, hcall⟩
  apply hlarge
  apply hfits.nodes
  rw [putKeys_put]
  exact List.mem_append_right _ (List.mem_singleton_self key)

/-- The node of a key with 2 ^ 31 bytes is too large. -/
theorem mapCalls_actsAsMap_fails : ¬ ∀ calls : List (MapCall 4),
    ∃ result, Ds.mapCalls (mapInit 4) calls = .ok result ∧ ActsAsMap calls result := by
  intro h
  obtain ⟨result, hcall, -⟩ := h [.put (List.replicate (2 ^ 31) 0) #v[0, 0, 0, 0] fun _ ↦ 0]
  refine mapCalls_long ?_ result hcall
  rw [List.length_replicate]
  decide

end Calls

end Brutal.Ds
