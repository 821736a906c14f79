import Mathlib.Algebra.Group.Int.Defs
import Mathlib.Algebra.Group.Nat.Defs
import Mathlib.Data.List.Nodup
import Mathlib.Data.List.TakeWhile

/-!
# Maps

`libs/brutal-ds/map.c` keeps the nodes of a map in 512 buckets.  The model has the nodes in the
order in which `map_foreach` goes over them, one bucket after the other.
-/

namespace Brutal.Ds

variable {α : Type}
variable {nodes puts : List (List UInt8 × α)} {key : List UInt8} {node : List UInt8 × α}

/-- `fnv_32` -/
def fnv32 (buf : List UInt8) (hval : UInt32) : UInt32 :=
  buf.foldl (fun hval byte ↦ hval * 0x01000193 ^^^ byte.toUInt32) hval

/-- `map_hash` -/
def mapHash (key : List UInt8) : UInt32 := fnv32 key 0x811c9dc5

/-- `MAP_BUCKET_COUNT` -/
def mapBucketCount : ℕ := 512

/-- The number of the bucket of a key, as in `map_bucket`. -/
def mapBucket (key : List UInt8) : ℕ := (mapHash key).toNat % mapBucketCount

/-- `map_put_impl`, which replaces the value of the key or adds a node at the end of its bucket. -/
def mapPut (nodes : List (List UInt8 × α)) (key : List UInt8) (value : α) : List (List UInt8 × α) :=
  if nodes.any fun node ↦ node.1 = key then
    nodes.map fun node ↦ if node.1 = key then (key, value) else node
  else
    nodes.takeWhile (fun node ↦ mapBucket node.1 ≤ mapBucket key) ++
      (key, value) :: nodes.dropWhile (fun node ↦ mapBucket node.1 ≤ mapBucket key)

/-- The nodes are in the order of their buckets, and every key is there once. -/
structure MapValid (nodes : List (List UInt8 × α)) : Prop where
  ordered : nodes.Pairwise fun first second ↦ mapBucket first.1 ≤ mapBucket second.1
  nodup : (nodes.map (·.1)).Nodup

theorem mapPut_of_mem (h : key ∈ nodes.map (·.1)) (value : α) :
    mapPut nodes key value = nodes.map fun node ↦ if node.1 = key then (key, value) else node := by
  obtain ⟨node, hnode, hkey⟩ := List.mem_map.1 h
  exact if_pos (List.any_eq_true.2 ⟨node, hnode, decide_eq_true hkey⟩)

theorem mapPut_of_notMem (h : key ∉ nodes.map (·.1)) (value : α) :
    mapPut nodes key value =
      nodes.takeWhile (fun node ↦ mapBucket node.1 ≤ mapBucket key) ++
        (key, value) :: nodes.dropWhile (fun node ↦ mapBucket node.1 ≤ mapBucket key) := by
  refine if_neg fun hany ↦ h ?_
  obtain ⟨node, hnode, hkey⟩ := List.any_eq_true.1 hany
  exact List.mem_map.2 ⟨node, hnode, of_decide_eq_true hkey⟩

/-- A new key goes behind the nodes of its bucket. -/
theorem mapPut_between {before after : List (List UInt8 × α)}
    (h : key ∉ (before ++ after).map (·.1))
    (hbefore : ∀ node ∈ before, mapBucket node.1 ≤ mapBucket key)
    (hafter : ∀ node ∈ after, mapBucket key < mapBucket node.1) (value : α) :
    mapPut (before ++ after) key value = before ++ (key, value) :: after := by
  have hbefore' : ∀ node ∈ before, decide (mapBucket node.1 ≤ mapBucket key) = true :=
    fun node hnode ↦ decide_eq_true (hbefore node hnode)
  have htake : after.takeWhile (fun node ↦ mapBucket node.1 ≤ mapBucket key) = [] := by
    cases after with
    | nil => rfl
    | cons node rest =>
      have hlt := hafter node List.mem_cons_self
      exact List.takeWhile_cons_of_neg (by simpa using hlt)
  have hdrop : after.dropWhile (fun node ↦ mapBucket node.1 ≤ mapBucket key) = after := by
    cases after with
    | nil => rfl
    | cons node rest =>
      have hlt := hafter node List.mem_cons_self
      exact List.dropWhile_cons_of_neg (by simpa using hlt)
  rw [mapPut_of_notMem h, List.takeWhile_append_of_pos hbefore',
    List.dropWhile_append_of_pos hbefore', htake, hdrop, List.append_nil]

theorem mapPut_perm (h : key ∉ nodes.map (·.1)) (value : α) :
    (mapPut nodes key value).Perm ((key, value) :: nodes) := by
  rw [mapPut_of_notMem h]
  refine List.perm_middle.trans (List.Perm.cons _ ?_)
  rw [List.takeWhile_append_dropWhile]

theorem length_mapPut (nodes : List (List UInt8 × α)) (key : List UInt8) (value : α) :
    (mapPut nodes key value).length =
      if key ∈ nodes.map (·.1) then nodes.length else nodes.length + 1 := by
  split
  next h => rw [mapPut_of_mem h, List.length_map]
  next h => rw [(mapPut_perm h value).length_eq, List.length_cons]

theorem keys_mapPut_of_mem (h : key ∈ nodes.map (·.1)) (value : α) :
    (mapPut nodes key value).map (·.1) = nodes.map (·.1) := by
  rw [mapPut_of_mem h, List.map_map]
  apply List.map_congr_left
  intro node _
  by_cases hkey : node.1 = key
  · rw [Function.comp_apply, if_pos hkey, hkey]
  · rw [Function.comp_apply, if_neg hkey]

theorem lt_of_mem_dropWhile {bucket : ℕ}
    (h : nodes.Pairwise fun first second ↦ mapBucket first.1 ≤ mapBucket second.1)
    (hnode : node ∈ nodes.dropWhile fun node ↦ mapBucket node.1 ≤ bucket) :
    bucket < mapBucket node.1 := by
  induction nodes with
  | nil => cases hnode
  | cons first rest ih =>
    by_cases hfirst : mapBucket first.1 ≤ bucket
    · rw [List.dropWhile_cons, if_pos (decide_eq_true hfirst)] at hnode
      exact ih (List.pairwise_cons.1 h).2 hnode
    · rw [List.dropWhile_cons, if_neg (by simpa using hfirst)] at hnode
      have hlt := Nat.lt_of_not_le hfirst
      rcases List.mem_cons.1 hnode with rfl | hrest
      · exact hlt
      · exact lt_of_lt_of_le hlt ((List.pairwise_cons.1 h).1 node hrest)

/-- Putting keeps the order of the buckets, and every key once. -/
theorem MapValid.put (h : MapValid nodes) (key : List UInt8) (value : α) :
    MapValid (mapPut nodes key value) := by
  by_cases hmem : key ∈ nodes.map (·.1)
  · refine ⟨?_, ?_⟩
    · rw [mapPut_of_mem hmem, List.pairwise_map]
      refine h.ordered.imp ?_
      intro first second hle
      have hkey : ∀ node : List UInt8 × α,
          (if node.1 = key then (key, value) else node).1 = node.1 := by
        intro node
        split
        next heq => exact heq.symm
        next => rfl
      rw [hkey, hkey]
      exact hle
    · rw [keys_mapPut_of_mem hmem]
      exact h.nodup
  · refine ⟨?_, ?_⟩
    · rw [mapPut_of_notMem hmem]
      have hsplit := h.ordered
      rw [← List.takeWhile_append_dropWhile (p := fun node ↦ mapBucket node.1 ≤ mapBucket key)
        (l := nodes), List.pairwise_append] at hsplit
      obtain ⟨hbefore, hafter, hacross⟩ := hsplit
      refine List.pairwise_append.2 ⟨hbefore, List.pairwise_cons.2 ⟨?_, hafter⟩, ?_⟩
      · intro node hnode
        exact (lt_of_mem_dropWhile h.ordered hnode).le
      · intro first hfirst second hsecond
        rcases List.mem_cons.1 hsecond with rfl | hsecond
        · have hle := List.mem_takeWhile_imp hfirst
          exact of_decide_eq_true hle
        · exact hacross first hfirst second hsecond
    · have hperm := (mapPut_perm hmem value).map (·.1)
      exact hperm.nodup_iff.2 (List.nodup_cons.2 ⟨hmem, h.nodup⟩)

/-- What was in a map or is put into it is all that is in it afterwards. -/
theorem mem_mapPut {value : α} (h : node ∈ mapPut nodes key value) :
    node = (key, value) ∨ node ∈ nodes := by
  by_cases hmem : key ∈ nodes.map (·.1)
  · rw [mapPut_of_mem hmem] at h
    obtain ⟨old, hold, heq⟩ := List.mem_map.1 h
    split at heq
    · exact Or.inl heq.symm
    · exact Or.inr (heq ▸ hold)
  · exact List.mem_cons.1 ((mapPut_perm hmem value).mem_iff.1 h)

theorem mem_mapPut_iff {value : α} :
    node ∈ mapPut nodes key value ↔ node = (key, value) ∨ node.1 ≠ key ∧ node ∈ nodes := by
  by_cases hmem : key ∈ nodes.map (·.1)
  · rw [mapPut_of_mem hmem, List.mem_map]
    constructor
    · rintro ⟨old, hold, rfl⟩
      split
      next => exact Or.inl rfl
      next hne => exact Or.inr ⟨hne, hold⟩
    · rintro (rfl | ⟨hne, hnode⟩)
      · obtain ⟨old, hold, hkey⟩ := List.mem_map.1 hmem
        exact ⟨old, hold, if_pos hkey⟩
      · exact ⟨node, hnode, if_neg hne⟩
  · rw [(mapPut_perm hmem value).mem_iff, List.mem_cons]
    constructor
    · rintro (rfl | hnode)
      · exact Or.inl rfl
      · exact Or.inr ⟨fun hkey ↦ hmem (List.mem_map.2 ⟨node, hnode, hkey⟩), hnode⟩
    · exact Or.imp_right And.right

/-- A map with nodes put into it in their order. -/
def mapPutAll (nodes : List (List UInt8 × α)) (puts : List (List UInt8 × α)) :
    List (List UInt8 × α) :=
  puts.foldl (fun nodes put ↦ mapPut nodes put.1 put.2) nodes

theorem mapPutAll_cons (nodes : List (List UInt8 × α)) (put : List UInt8 × α)
    (puts : List (List UInt8 × α)) :
    mapPutAll nodes (put :: puts) = mapPutAll (mapPut nodes put.1 put.2) puts := rfl

theorem mapPutAll_singleton (nodes : List (List UInt8 × α)) (put : List UInt8 × α) :
    mapPutAll nodes [put] = mapPut nodes put.1 put.2 := rfl

theorem length_mapPutAll_le (nodes puts : List (List UInt8 × α)) :
    (mapPutAll nodes puts).length ≤ nodes.length + puts.length := by
  induction puts generalizing nodes with
  | nil => exact le_refl _
  | cons put puts ih =>
    have hput := ih (mapPut nodes put.1 put.2)
    rw [length_mapPut] at hput
    rw [mapPutAll_cons, List.length_cons]
    split at hput <;> omega

/-- New keys, each put once, are all that is added. -/
theorem mapPutAll_perm (h : ((nodes ++ puts).map (·.1)).Nodup) :
    (mapPutAll nodes puts).Perm (nodes ++ puts) := by
  induction puts generalizing nodes with
  | nil => rw [mapPutAll, List.foldl_nil, List.append_nil]
  | cons put puts ih =>
    have hmiddle : (nodes ++ put :: puts).Perm (put :: nodes ++ puts) := List.perm_middle
    have hnodup := (hmiddle.map (·.1)).nodup_iff.1 h
    have hnew : put.1 ∉ nodes.map (·.1) := by
      rw [List.cons_append, List.map_cons, List.nodup_cons, List.map_append, List.mem_append,
        not_or] at hnodup
      exact hnodup.1.1
    have hput : (mapPut nodes put.1 put.2 ++ puts).Perm (put :: nodes ++ puts) :=
      (mapPut_perm hnew put.2).append_right puts
    rw [mapPutAll_cons]
    exact (ih ((hput.map (·.1)).nodup_iff.2 hnodup)).trans (hput.trans hmiddle.symm)

/-- If as many nodes are added as were put, each key was put once. -/
theorem nodup_of_length_mapPutAll (hnodes : (nodes.map (·.1)).Nodup)
    (h : (mapPutAll nodes puts).length = nodes.length + puts.length) :
    ((nodes ++ puts).map (·.1)).Nodup := by
  induction puts generalizing nodes with
  | nil => rwa [List.append_nil]
  | cons put puts ih =>
    have hle := length_mapPutAll_le (mapPut nodes put.1 put.2) puts
    rw [mapPutAll_cons, List.length_cons] at h
    rw [h] at hle
    by_cases hmem : put.1 ∈ nodes.map (·.1)
    · rw [length_mapPut, if_pos hmem] at hle
      omega
    · have hperm := mapPut_perm hmem put.2
      have hkeys : ((mapPut nodes put.1 put.2).map (·.1)).Nodup :=
        (hperm.map (·.1)).nodup_iff.2 (List.nodup_cons.2 ⟨hmem, hnodes⟩)
      have hlength : (mapPutAll (mapPut nodes put.1 put.2) puts).length =
          (mapPut nodes put.1 put.2).length + puts.length := by
        rw [h, hperm.length_eq, List.length_cons]
        omega
      have hmiddle : (nodes ++ put :: puts).Perm (put :: nodes ++ puts) := List.perm_middle
      have hput : (mapPut nodes put.1 put.2 ++ puts).Perm (put :: nodes ++ puts) :=
        hperm.append_right puts
      exact ((hput.trans hmiddle.symm).map (·.1)).nodup_iff.1 (ih hkeys hlength)

/-- The nodes of a map, put in their order, make up the same map. -/
theorem MapValid.mapPutAll_eq (h : MapValid (nodes ++ puts)) :
    mapPutAll nodes puts = nodes ++ puts := by
  induction puts generalizing nodes with
  | nil => rw [mapPutAll, List.foldl_nil, List.append_nil]
  | cons put puts ih =>
    have hnew : put.1 ∉ nodes.map (·.1) := by
      have hnodup := h.nodup
      rw [List.map_append, List.nodup_append] at hnodup
      intro hmem
      exact hnodup.2.2 _ hmem _ List.mem_cons_self rfl
    have hbefore : ∀ node ∈ nodes, decide (mapBucket node.1 ≤ mapBucket put.1) = true := by
      intro node hnode
      have hordered := (List.pairwise_append.1 h.ordered).2.2
      exact decide_eq_true (hordered node hnode put List.mem_cons_self)
    have hput : mapPut nodes put.1 put.2 = nodes ++ [put] := by
      rw [mapPut_of_notMem hnew, List.takeWhile_eq_self_iff.2 hbefore,
        List.dropWhile_eq_nil_iff.2 hbefore]
    rw [mapPutAll_cons, hput, ih (by rw [List.append_assoc]; exact h), List.append_assoc,
      List.singleton_append]

end Brutal.Ds
