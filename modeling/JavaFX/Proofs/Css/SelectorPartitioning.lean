/-
What `SelectorPartitioning` files, and what it finds again.

A selector has a path: its id, its type and its style classes, if it has them.  The
partitioning keeps the selectors of one path in one list, in the order in which they
came.  `match` visits the paths that fit a node, each of them once, so what it gathers
are the selectors that fit, and the ordinals put them back into their order.
-/
import JavaFX.Css.SelectorPartitioning
import JavaFX.Proofs.Css.Selector

namespace JavaFX.SelectorPartitioning

open AssocList

/-! ### Paths -/

/-- Where a selector is filed. -/
structure Path where
  id : Option String
  type : String
  classes : Option (List Long)
deriving DecidableEq

def place (selector : SelectorObject) : Option Path :=
  let s := selector.selector.rightmost
  if s.name = "" then none
  else some ⟨if s.id = "" then none else some s.id, s.name,
    if 0 < s.styleClassSet.set.size then some s.styleClassSet.set.bits else none⟩

/-- The selectors of a path. -/
def filed (seq : List SelectorObject) (path : Path) : List SelectorObject :=
  seq.filter (place · = some path)

/-- What is filed under an id, or none, and a type: the selectors without style classes,
and the slots for those that have some. -/
def node (st : SelectorPartitioning) (id : Option String) (type : String) :
    List SelectorObject × List (PartitionKey × Slot) :=
  match id with
  | some id =>
    match get (.name id) st.idMap with
    | some partition =>
      match get (.name type) partition.slots with
      | some slot => (slot.selectors, slot.referents)
      | none => ([], [])
    | none => ([], [])
  | none =>
    match get (.name type) st.typeMap with
    | some partition => (partition.selectors, partition.slots)
    | none => ([], [])

/-- One selector more under an id and a type. -/
def addTo (classes : Option (List Long)) (selector : SelectorObject)
    (n : List SelectorObject × List (PartitionKey × Slot)) :
    List SelectorObject × List (PartitionKey × Slot) :=
  match classes with
  | none => (n.1 ++ [selector], n.2)
  | some bits =>
    (n.1, upsert (.styleClasses bits) (.new (.styleClasses bits)) (·.addSelector selector) n.2)

/-- The style classes of a selector, if it has some. -/
def classesOf (s : SimpleSelector) : Option (List Long) :=
  if 0 < s.styleClassSet.set.size then some s.styleClassSet.set.bits else none

theorem fileInSlot_eq (s : SimpleSelector) (selector : SelectorObject) (slot : Slot) :
    ((fileInSlot (.styleClasses s.styleClassSet.set.bits) (decide (0 < s.styleClassSet.set.size))
        selector slot).selectors,
      (fileInSlot (.styleClasses s.styleClassSet.set.bits) (decide (0 < s.styleClassSet.set.size))
        selector slot).referents)
      = addTo (classesOf s) selector (slot.selectors, slot.referents) := by
  unfold fileInSlot classesOf
  by_cases h : 0 < s.styleClassSet.set.size
  · simp only [h]
    rfl
  · simp only [h]
    cases slot
    rfl

theorem fileInPartition_eq (s : SimpleSelector) (selector : SelectorObject) (p : Partition) :
    ((fileInPartition (.styleClasses s.styleClassSet.set.bits)
        (decide (0 < s.styleClassSet.set.size)) selector p).selectors,
      (fileInPartition (.styleClasses s.styleClassSet.set.bits)
        (decide (0 < s.styleClassSet.set.size)) selector p).slots)
      = addTo (classesOf s) selector (p.selectors, p.slots) := by
  unfold fileInPartition classesOf
  by_cases h : 0 < s.styleClassSet.set.size
  · simp only [h]
    rfl
  · simp only [h]
    rfl

theorem get_getPartition (key key' : PartitionKey) (map : List (PartitionKey × Partition)) :
    ((get key' (getPartition key map)).getD {}) = (get key' map).getD {} := by
  unfold getPartition
  rw [get_upsert]
  split
  · rename_i h
    rw [h]
    rfl
  · rfl

theorem node_none (st : SelectorPartitioning) (type : String) :
    st.node none type = (((get (.name type) st.typeMap).getD {}).selectors,
      ((get (.name type) st.typeMap).getD {}).slots) := by
  unfold node
  cases get (PartitionKey.name type) st.typeMap <;> rfl

theorem node_some (st : SelectorPartitioning) (id type : String) : st.node (some id) type =
      let slots := ((get (.name id) st.idMap).getD {}).slots
      let slot := (get (.name type) slots).getD (.new (.name type))
      (slot.selectors, slot.referents) := by
  simp only [node]
  cases hp : get (PartitionKey.name id) st.idMap with
  | none => rfl
  | some p =>
    simp only [Option.getD_some]
    cases get (PartitionKey.name type) p.slots <;> rfl

/-- **Filing a selector** changes what lies under its id and its type, and nothing else. -/
theorem node_partition (st : SelectorPartitioning) (selector : SelectorObject) (id : Option String) (type : String) :
    (st.partition selector).node id type =
      match place selector with
      | some path => if id = path.id ∧ type = path.type then
          addTo path.classes selector (st.node id type) else st.node id type
      | none => st.node id type := by
  set s := selector.selector.rightmost with hs
  by_cases hname : s.name = ""
  · have hplace : place selector = none := by
      simp only [place, ← hs, if_pos hname]
    have hsame : (st.partition selector).idMap = st.idMap ∧ (st.partition selector).typeMap = st.typeMap := by
      simp [partition, ← hs, hname]
    rw [hplace]
    unfold node
    rw [hsame.1, hsame.2]
  · by_cases hid : s.id = ""
    · have hplace : place selector = some ⟨none, s.name, classesOf s⟩ := by
        simp only [place, ← hs, if_neg hname, if_pos hid, classesOf]
      have hmaps : (st.partition selector).idMap = st.idMap ∧
          (st.partition selector).typeMap = upsert (.name s.name) {} (fileInPartition
            (.styleClasses s.styleClassSet.set.bits) (decide (0 < s.styleClassSet.set.size)) selector)
            st.typeMap := by
        simp [partition, ← hs, hname, hid]
      rw [hplace]
      cases id with
      | some id =>
        simp only [node_some, hmaps.1, reduceCtorEq, false_and, if_false]
      | none =>
        simp only [node_none, hmaps.2, get_upsert, PartitionKey.name.injEq, true_and]
        by_cases htype : type = s.name
        · subst htype
          simp only
          exact fileInPartition_eq s selector _
        · simp only [if_neg htype]
    · have hplace : place selector = some ⟨some s.id, s.name, classesOf s⟩ := by
        simp only [place, ← hs, if_neg hname, if_neg hid, classesOf]
      have hid' : (st.partition selector).idMap = upsert (.name s.id) {} (fun p => { p with
          slots := upsert (.name s.name) (.new (.name s.name)) (fileInSlot
            (.styleClasses s.styleClassSet.set.bits) (decide (0 < s.styleClassSet.set.size)) selector)
            p.slots }) st.idMap := by
        simp [partition, ← hs, hname, hid]
      have htype' : ∀ key, (get key (st.partition selector).typeMap).getD {} = (get key st.typeMap).getD {} := by
        intro key
        simp only [partition, ← hs, ne_eq, hname, not_false_eq_true, if_true, hid]
        split
        · exact get_getPartition _ _ _
        · rfl
      rw [hplace]
      cases id with
      | none => simp only [node_none, htype', reduceCtorEq, false_and, if_false]
      | some id =>
        simp only [node_some, hid', get_upsert, PartitionKey.name.injEq, Option.some.injEq]
        by_cases hi : id = s.id
        · subst hi
          simp only [if_true, Option.getD_some, get_upsert, PartitionKey.name.injEq, true_and]
          by_cases htype : type = s.name
          · subst htype
            simp only
            exact fileInSlot_eq s selector _
          · simp only [if_neg htype]
        · simp only [hi, false_and, if_false]

/-! ### What is filed -/

/-- Under an id and a type lie the selectors that belong there. -/
structure FiledAt (seq : List SelectorObject) (id : Option String) (type : String)
    (n : List SelectorObject × List (PartitionKey × Slot)) : Prop where
  selectors : n.1 = filed seq ⟨id, type, none⟩
  nodup : (keys n.2).Nodup
  slots : ∀ key slot, get key n.2 = some slot → slot.key = key ∧
    ∃ bits, key = .styleClasses bits ∧ slot.selectors = filed seq ⟨id, type, some bits⟩
  complete : ∀ s ∈ seq, ∀ bits, place s = some ⟨id, type, some bits⟩ → PartitionKey.styleClasses bits ∈ keys n.2

theorem filed_append (seq : List SelectorObject) (selector : SelectorObject) (path : Path) :
    filed (seq ++ [selector]) path = filed seq path ++ if place selector = some path then [selector] else [] := by
  unfold filed
  by_cases h : place selector = some path
  · simp [h]
  · simp [h]

variable {seq : List SelectorObject} {selector : SelectorObject} {path : Path} {id : Option String} {type : String}
  {n : List SelectorObject × List (PartitionKey × Slot)} {st : SelectorPartitioning} {classes : Option BitSet}

theorem filed_append_ne (h : place selector ≠ some path) : filed (seq ++ [selector]) path = filed seq path := by
  rw [filed_append, if_neg h, List.append_nil]

theorem FiledAt.other (h : FiledAt seq id type n) (hne : ∀ classes, place selector ≠ some ⟨id, type, classes⟩) :
    FiledAt (seq ++ [selector]) id type n := by
  refine ⟨?_, h.nodup, ?_, ?_⟩
  · rw [filed_append_ne (hne none)]
    exact h.selectors
  · intro key slot hget
    obtain ⟨hkey, bits, hbits, hsel⟩ := h.slots key slot hget
    refine ⟨hkey, bits, hbits, ?_⟩
    rw [filed_append_ne (hne (some bits))]
    exact hsel
  · intro s hs bits hplace
    rcases List.mem_append.mp hs with hs | hs
    · exact h.complete s hs bits hplace
    · obtain rfl : s = selector := by simpa using hs
      exact absurd hplace (hne (some bits))

theorem FiledAt.add (h : FiledAt seq id type n) {classes : Option (List Long)}
    (hplace : place selector = some ⟨id, type, classes⟩) :
    FiledAt (seq ++ [selector]) id type (addTo classes selector n) := by
  cases classes with
  | none =>
    refine ⟨?_, h.nodup, ?_, ?_⟩
    · show n.1 ++ [selector] = _
      rw [filed_append, if_pos hplace, h.selectors]
    · intro key slot hget
      obtain ⟨hkey, bits, hbits, hsel⟩ := h.slots key slot hget
      refine ⟨hkey, bits, hbits, ?_⟩
      rw [filed_append_ne (by rw [hplace]; simp)]
      exact hsel
    · intro s hs bits hs'
      rcases List.mem_append.mp hs with hs | hs
      · exact h.complete s hs bits hs'
      · obtain rfl : s = selector := by simpa using hs
        rw [hplace] at hs'
        simp at hs'
  | some bits =>
    refine ⟨?_, nodup_keys_upsert h.nodup, ?_, ?_⟩
    · rw [filed_append_ne (by rw [hplace]; simp)]
      exact h.selectors
    · intro key slot hget
      have hget : get key (upsert (.styleClasses bits) (.new (.styleClasses bits))
          (·.addSelector selector) n.2) = some slot := hget
      rw [get_upsert] at hget
      by_cases hkey : key = .styleClasses bits
      · rw [if_pos hkey] at hget
        obtain rfl := Option.some.inj hget
        refine ⟨?_, bits, hkey, ?_⟩
        · rw [hkey]
          cases hold : get (PartitionKey.styleClasses bits) n.2 with
          | none => rfl
          | some old =>
            have := (h.slots _ old hold).1
            cases old
            exact this
        · rw [filed_append, if_pos hplace]
          cases hold : get (PartitionKey.styleClasses bits) n.2 with
          | none =>
            -- no selector has had these style classes before
            have hempty : filed seq ⟨id, type, some bits⟩ = [] := by
              unfold filed
              rw [List.filter_eq_nil_iff]
              intro s hs hs'
              have := mem_keys_iff.mp (h.complete s hs bits (by simpa using hs'))
              rw [hold] at this
              simp at this
            rw [hempty]
            rfl
          | some old =>
            obtain ⟨-, bits', hbits, hsel⟩ := h.slots _ old hold
            obtain rfl : bits = bits' := by simpa using hbits
            rw [← hsel]
            cases old
            rfl
      · rw [if_neg hkey] at hget
        obtain ⟨hkey', bits', hbits, hsel⟩ := h.slots key slot hget
        refine ⟨hkey', bits', hbits, ?_⟩
        rw [filed_append_ne]
        · exact hsel
        · rw [hplace]
          intro heq
          simp at heq
          exact hkey (by rw [hbits, heq])
    · intro s hs bits' hs'
      show _ ∈ keys (upsert _ _ _ n.2)
      rw [mem_keys_iff, get_upsert]
      by_cases hb : PartitionKey.styleClasses bits' = .styleClasses bits
      · rw [if_pos hb]
        rfl
      · rw [if_neg hb, ← mem_keys_iff]
        rcases List.mem_append.mp hs with hs | hs
        · exact h.complete s hs bits' hs'
        · obtain rfl : s = selector := by simpa using hs
          rw [hplace] at hs'
          simp at hs'
          exact absurd (by rw [hs']) hb

/-- The partitioning after a sequence of selectors. -/
structure Filed (seq : List SelectorObject) (st : SelectorPartitioning) : Prop where
  nodes : ∀ id type, FiledAt seq id type (st.node id type)
  bare : ∀ id p, get id st.idMap = some p → p.selectors = []
  count : st.ordinal = seq.length
  ordinals : (seq.map (·.ref)).Nodup → ∀ i s, seq[i]? = some s → st.ordinals s.ref = i

theorem filed_nil : Filed [] {} := by
  refine ⟨?_, fun id p h => by simp [AssocList.get] at h, rfl, fun _ i s h => by simp at h⟩
  intro id type
  have hnode : ({} : SelectorPartitioning).node id type = ([], []) := by
    cases id <;> rfl
  rw [hnode]
  exact ⟨rfl, by simp [keys], fun key slot h => by simp [AssocList.get] at h, fun s h => by simp at h⟩

theorem ordinals_partition (st : SelectorPartitioning) (selector : SelectorObject) :
    (st.partition selector).ordinal = st.ordinal + 1 ∧
      ∀ r, (st.partition selector).ordinals r = if r = selector.ref then st.ordinal
        else st.ordinals r := by
  unfold partition
  simp only
  split
  · split <;> exact ⟨rfl, fun _ => rfl⟩
  · exact ⟨rfl, fun _ => rfl⟩

theorem bare_partition (selector : SelectorObject) (h : ∀ id p, get id st.idMap = some p → p.selectors = []) :
    ∀ id p, get id (st.partition selector).idMap = some p → p.selectors = [] := by
  intro id p hp
  unfold partition at hp
  simp only at hp
  split at hp
  · split at hp
    · rw [get_upsert] at hp
      split at hp
      · obtain rfl := Option.some.inj hp
        cases hold : get (PartitionKey.name selector.selector.rightmost.id) st.idMap with
        | none => rfl
        | some old => exact h _ old hold
      · exact h id p hp
    · exact h id p hp
  · exact h id p hp

/-- **One more selector.** -/
theorem Filed.partition (h : Filed seq st)
    (selector : SelectorObject) : Filed (seq ++ [selector]) (st.partition selector) := by
  obtain ⟨hcount, hordinals⟩ := ordinals_partition st selector
  refine ⟨?_, bare_partition selector h.bare, by simp [hcount, h.count], ?_⟩
  · intro id type
    rw [node_partition]
    cases hplace : place selector with
    | none => exact (h.nodes id type).other (by simp [hplace])
    | some path =>
      by_cases hhere : id = path.id ∧ type = path.type
      · simp only [if_pos hhere]
        obtain ⟨rfl, rfl⟩ := hhere
        exact (h.nodes path.id path.type).add hplace
      · simp only [if_neg hhere]
        refine (h.nodes id type).other ?_
        intro classes heq
        rw [hplace] at heq
        obtain rfl := Option.some.inj heq
        exact hhere ⟨rfl, rfl⟩
  · intro hnodup i s hs
    rw [List.map_append, List.nodup_append] at hnodup
    obtain ⟨hseq, -, hnew⟩ := hnodup
    rw [hordinals]
    by_cases hi : i < seq.length
    · rw [List.getElem?_append_left hi] at hs
      have hne : s.ref ≠ selector.ref :=
        hnew _ (List.mem_map_of_mem (List.mem_of_getElem? hs)) _ (by simp)
      rw [if_neg hne]
      exact h.ordinals hseq i s hs
    · rw [List.getElem?_append_right (by omega)] at hs
      have hi' : i - seq.length = 0 := by
        have := (List.getElem?_eq_some_iff.mp hs).1
        simp at this
        omega
      rw [hi'] at hs
      obtain rfl : selector = s := by simpa using hs
      rw [if_pos rfl, h.count]
      omega

theorem filed_partitionAll (seq : List SelectorObject) : Filed seq (partitionAll seq) := by
  induction seq using List.reverseRecOn with
  | nil => exact filed_nil
  | append_singleton seq selector ih =>
    have heq : partitionAll (seq ++ [selector]) = (partitionAll seq).partition selector := by
      simp [partitionAll]
    rw [heq]
    exact ih.partition selector

/-! ### What is found -/

/-- Style classes that are among those of the node. -/
def fitting (classes : Option BitSet) (bits : List Long) : Bool :=
  match classes with
  | some key => 0 < key.size ∧ key.containsAll (some { bits }) = true
  | none => false

/-- The path of a slot, if the loop over the slots takes it. -/
def slotPath (classes : Option BitSet) (id : Option String) (type : String) :
    PartitionKey → Option Path
  | .styleClasses bits => if fitting classes bits then some ⟨id, type, some bits⟩ else none
  | .name _ => none

/-- The paths visited under an id and a type. -/
def nodePaths (classes : Option BitSet) (id : Option String) (type : String)
    (n : List SelectorObject × List (PartitionKey × Slot)) : List Path :=
  ⟨id, type, none⟩ :: (keys n.2).filterMap (slotPath classes id type)

theorem gatherSlots_eq (h : FiledAt seq id type n) (classes : Option BitSet) : gatherSlots classes n.2
      = ((keys n.2).filterMap (slotPath classes id type)).flatMap (filed seq) := by
  have hkey : ∀ key ∈ keys n.2, (get key n.2).elim [] (fun slot =>
      match classes with
      | some set => if 0 < set.size then if keyContained set slot.key then slot.selectors else [] else []
      | none => []) = (slotPath classes id type key).toList.flatMap (filed seq) := by
    intro key hmem
    obtain ⟨slot, hslot⟩ := Option.isSome_iff_exists.mp (mem_keys_iff.mp hmem)
    obtain ⟨hk, bits, hbits, hsel⟩ := h.slots key slot hslot
    rw [hslot]
    simp only [Option.elim_some, hk, hbits, slotPath, fitting, keyContained, hsel]
    cases classes with
    | none => simp
    | some set =>
      by_cases hpos : 0 < set.size
      · by_cases hc : set.containsAll (some { bits }) = true
        · simp [hpos, hc]
        · simp [hc]
      · simp [hpos]
  rw [List.filterMap_eq_flatMap_toList, List.flatMap_assoc, ← List.flatMap_congr hkey]
  rw [← flatMap_eq (fun _ slot => _) h.nodup]
  unfold gatherSlots
  cases classes with
  | none => simp
  | some set =>
    by_cases hpos : 0 < set.size
    · simp only [if_pos hpos]
    · simp [hpos]

theorem gatherNode_eq (h : FiledAt seq id type n) (classes : Option BitSet) :
    n.1 ++ gatherSlots classes n.2 = (nodePaths classes id type n).flatMap (filed seq) := by
  unfold nodePaths
  rw [List.flatMap_cons, ← h.selectors, gatherSlots_eq h]

/-- The ids that are looked under. -/
def idKeys : Option String → List (Option String)
  | some id => if id = "" then [none] else [some id, none]
  | none => [none]

/-- All the paths that are visited. -/
def visited (st : SelectorPartitioning) (id : Option String) (type : String)
    (classes : Option BitSet) : List Path :=
  (idKeys id).flatMap fun id => (typeKeys type).flatMap fun type =>
    nodePaths classes id type (st.node id type)

theorem gatherByType_eq (h : Filed seq st) (type : String) (classes : Option BitSet) : gatherByType type classes st
      = ((typeKeys type).flatMap fun type => nodePaths classes none type
        (st.node none type)).flatMap (filed seq) := by
  rw [List.flatMap_assoc]
  apply List.flatMap_congr
  intro t _
  rw [← gatherNode_eq (h.nodes none t)]
  simp only [node]
  cases get (PartitionKey.name t) st.typeMap with
  | none => cases classes <;> simp [gatherSlots]
  | some p => rfl

theorem gatherById_eq (h : Filed seq st) (id type : String) (classes : Option BitSet) : gatherById id type classes st
      = ((typeKeys type).flatMap fun type =>
          nodePaths classes (some id) type (st.node (some id) type)).flatMap (filed seq) := by
  have hnil : gatherSlots classes [] = [] := by
    cases classes <;> simp [gatherSlots]
  rw [List.flatMap_assoc]
  unfold gatherById
  cases hp : get (PartitionKey.name id) st.idMap with
  | none =>
    symm
    rw [List.flatMap_eq_nil_iff]
    intro t _
    rw [← gatherNode_eq (h.nodes (some id) t)]
    simp [node, hp, hnil]
  | some p =>
    simp only [h.bare _ p hp]
    apply List.flatMap_congr
    intro t _
    rw [← gatherNode_eq (h.nodes (some id) t)]
    simp only [node, hp]
    cases get (PartitionKey.name t) p.slots with
    | none => simp [hnil]
    | some slot => rfl

theorem mem_nodePaths : path ∈ nodePaths classes id type n ↔ path.id = id ∧ path.type = type ∧
      (path.classes = none ∨ ∃ bits, path.classes = some bits ∧
        PartitionKey.styleClasses bits ∈ keys n.2 ∧ fitting classes bits = true) := by
  unfold nodePaths
  rw [List.mem_cons, List.mem_filterMap]
  constructor
  · rintro (rfl | ⟨key, hkey, hpath⟩)
    · exact ⟨rfl, rfl, .inl rfl⟩
    · cases key with
      | name _ => simp [slotPath] at hpath
      | styleClasses bits =>
        by_cases hfit : fitting classes bits = true
        · simp only [slotPath, if_pos hfit, Option.some.injEq] at hpath
          subst hpath
          exact ⟨rfl, rfl, .inr ⟨bits, rfl, hkey, hfit⟩⟩
        · simp [slotPath, hfit] at hpath
  · rintro ⟨rfl, rfl, hnone | ⟨bits, hbits, hkey, hfit⟩⟩
    · left
      cases path
      simp_all
    · right
      refine ⟨_, hkey, ?_⟩
      cases path
      simp_all [slotPath]

theorem nodup_nodePaths (h : FiledAt seq id type n)
    (classes : Option BitSet) : (nodePaths classes id type n).Nodup := by
  refine List.nodup_cons.mpr ⟨?_, ?_⟩
  · intro hmem
    obtain ⟨key, -, hpath⟩ := List.mem_filterMap.mp hmem
    cases key with
    | name _ => simp [slotPath] at hpath
    | styleClasses bits => simp [slotPath] at hpath
  · refine List.Nodup.filterMap ?_ h.nodup
    intro key key' path hp hp'
    cases key with
    | name _ => simp [slotPath] at hp
    | styleClasses bits =>
      cases key' with
      | name _ => simp [slotPath] at hp'
      | styleClasses bits' =>
        simp only [slotPath, Option.mem_def, Option.ite_none_right_eq_some, Option.some.injEq] at hp hp'
        have := congrArg Path.classes (hp.2.trans hp'.2.symm)
        rw [Option.some.inj this]

theorem nodup_typeKeys (type : String) : (typeKeys type).Nodup := by
  unfold typeKeys
  split
  · simp
  · rename_i h
    simp [h]

theorem nodup_idKeys (id : Option String) : (idKeys id).Nodup := by
  cases id with
  | none => simp [idKeys]
  | some id =>
    simp only [idKeys]
    split <;> simp

theorem nodup_visited (h : Filed seq st) (id : Option String) (type : String) (classes : Option BitSet) :
    (st.visited id type classes).Nodup := by
  unfold visited
  rw [List.nodup_flatMap]
  constructor
  · intro id' _
    rw [List.nodup_flatMap]
    refine ⟨fun type' _ => nodup_nodePaths (h.nodes id' type') classes, ?_⟩
    refine List.Pairwise.imp ?_ (nodup_typeKeys type)
    intro t t' hne path hp hp'
    exact hne ((mem_nodePaths.mp hp).2.1.symm.trans (mem_nodePaths.mp hp').2.1)
  · refine List.Pairwise.imp ?_ (nodup_idKeys id)
    intro i i' hne path hp hp'
    obtain ⟨t, -, hp⟩ := List.mem_flatMap.mp hp
    obtain ⟨t', -, hp'⟩ := List.mem_flatMap.mp hp'
    exact hne ((mem_nodePaths.mp hp).1.symm.trans (mem_nodePaths.mp hp').1)

theorem mem_visited : path ∈ st.visited id type classes ↔ path.id ∈ idKeys id ∧ path.type ∈ typeKeys type ∧
      (path.classes = none ∨ ∃ bits, path.classes = some bits ∧
        PartitionKey.styleClasses bits ∈ keys (st.node path.id path.type).2 ∧ fitting classes bits = true) := by
  unfold visited
  simp only [List.mem_flatMap, mem_nodePaths]
  constructor
  · rintro ⟨i, hi, t, ht, rfl, rfl, h⟩
    exact ⟨hi, ht, h⟩
  · rintro ⟨hi, ht, h⟩
    exact ⟨path.id, hi, path.type, ht, rfl, rfl, h⟩

/-- What is gathered is what lies on the paths that are visited. -/
theorem matchSelectors_eq (h : Filed seq st) (id : Option String) (htype : type ≠ "") (classes : Option BitSet) :
    st.matchSelectors id (some type) classes = ((st.visited id type classes).flatMap (filed seq)).mergeSort
          fun o1 o2 => st.ordinals o1.ref ≤ st.ordinals o2.ref := by
  unfold matchSelectors visited
  simp only [if_neg htype]
  congr 1
  cases id with
  | none => simp [idKeys, gatherByType_eq h]
  | some id =>
    by_cases hid : id = ""
    · simp [idKeys, hid, gatherByType_eq h]
    · simp [idKeys, hid, gatherByType_eq h, gatherById_eq h]

/-! ### The order -/

/-- Selectors have their places in the sequence as ordinals. -/
theorem pairwise_ordinals (h : Filed seq st) (hseq : (seq.map (·.ref)).Nodup) :
    seq.Pairwise fun s s' => st.ordinals s.ref < st.ordinals s'.ref := by
  rw [List.pairwise_iff_getElem]
  intro i j hi hj hij
  rw [h.ordinals hseq i _ (List.getElem?_eq_getElem hi), h.ordinals hseq j _ (List.getElem?_eq_getElem hj)]
  exact hij

theorem sorted_eq (h : Filed seq st)
    (hseq : (seq.map (·.ref)).Nodup) {p : SelectorObject → Bool} {gathered : List SelectorObject}
    (hperm : gathered.Perm (seq.filter p)) :
    (gathered.mergeSort fun o1 o2 => st.ordinals o1.ref ≤ st.ordinals o2.ref) = seq.filter p := by
  have hsorted := (pairwise_ordinals h hseq).filter p
  have hpair : (gathered.mergeSort fun o1 o2 => decide (st.ordinals o1.ref ≤ st.ordinals o2.ref)).Pairwise
      fun o1 o2 => decide (st.ordinals o1.ref ≤ st.ordinals o2.ref) = true :=
    List.pairwise_mergeSort (by intro a b c hab hbc; simp at *; omega) (by intro a b; simp; omega) gathered
  have hpair := hpair.imp fun h => of_decide_eq_true h
  refine List.Perm.eq_of_pairwise ?_ hpair (hsorted.imp Nat.le_of_lt) ((List.mergeSort_perm _ _).trans hperm)
  intro a b ha hb hab hba
  have ha := List.mem_of_mem_filter (((List.mergeSort_perm _ _).trans hperm).mem_iff.mp ha)
  have hb := List.mem_of_mem_filter hb
  obtain ⟨i, hi⟩ := List.mem_iff_getElem?.mp ha
  obtain ⟨j, hj⟩ := List.mem_iff_getElem?.mp hb
  rw [h.ordinals hseq i a hi, h.ordinals hseq j b hj] at hab hba
  obtain rfl : i = j := by omega
  exact Option.some.inj (hi.symm.trans hj)

/-- The rightmost part of a selector matches a node by id, type and style classes. -/
def Selects (id : Option String) (type : String) (classes : Option BitSet)
    (selector : SelectorObject) : Prop :=
  let s := selector.selector.rightmost
  (s.id = "" ∨ id = some s.id) ∧ (s.name = "*" ∨ s.name = type) ∧
    ∀ t ∈ s.styleClassSet.set.members, ∃ set, classes = some set ∧ t ∈ set.members

theorem fitting_iff {s : SimpleSelector} (hpos : 0 < s.styleClassSet.set.size) :
    fitting classes s.styleClassSet.set.bits = true ↔
      ∀ t ∈ s.styleClassSet.set.members, ∃ set, classes = some set ∧ t ∈ set.members := by
  have htrimmed : ({ bits := s.styleClassSet.set.bits } : BitSet).Trimmed := s.styleClassSet.trimmed
  obtain ⟨t, ht⟩ := (BitSet.size_pos_iff _).mp hpos
  cases classes with
  | none =>
    simp only [fitting, Bool.false_eq_true, false_iff]
    intro h
    obtain ⟨set, hset, -⟩ := h t (BitSet.mem_members.mpr ht)
    simp at hset
  | some key =>
    simp only [fitting, decide_eq_true_eq, BitSet.containsAll_iff htrimmed, Option.some.injEq, exists_eq_left']
    constructor
    · exact fun h => h.2
    · intro h
      refine ⟨?_, h⟩
      exact (BitSet.size_pos_iff key).mpr ⟨t, BitSet.mem_members.mp (h t (BitSet.mem_members.mpr ht))⟩

/-- The path of a selector is visited if the selector fits. -/
theorem place_mem_visited (h : Filed seq st) {s : SelectorObject} (hs : s ∈ seq) (id : Option String)
    (htype : type ≠ "") (classes : Option BitSet) :
    (∃ path, place s = some path ∧ path ∈ st.visited id type classes) ↔ Selects id type classes s := by
  have hids : ∀ i : String, (if i = "" then none else some i) ∈ idKeys id ↔ i = "" ∨ id = some i := by
    intro i
    by_cases hi : i = ""
    · cases id with
      | none => simp [idKeys]
      | some id => simp only [idKeys]; split <;> simp [hi]
    · cases id with
      | none => simp [idKeys]
      | some id =>
        simp only [idKeys]
        split
        · rename_i hid
          simp [hi, hid]
        · simp [hi, eq_comm]
  have htypes : ∀ t : String, t ∈ typeKeys type ↔ t = "*" ∨ t = type := by
    intro t
    unfold typeKeys
    split
    · rename_i heq
      simp [heq]
    · simp [or_comm]
  set r := s.selector.rightmost with hr
  by_cases hname : r.name = ""
  · have hplace : place s = none := by
      simp only [place, ← hr, if_pos hname]
    rw [hplace]
    simp only [reduceCtorEq, false_and, exists_false, Selects, ← hr, hname, false_iff]
    rintro ⟨-, h | h, -⟩
    · simp at h
    · exact htype h.symm
  · have hplace : place s = some ⟨if r.id = "" then none else some r.id, r.name, classesOf r⟩ := by
      simp only [place, ← hr, if_neg hname, classesOf]
    rw [hplace]
    simp only [Option.some.injEq, exists_eq_left', mem_visited, hids, htypes]
    refine and_congr_right fun _ => and_congr_right fun _ => ?_
    by_cases hpos : 0 < r.styleClassSet.set.size
    · have hclasses : classesOf r = some r.styleClassSet.set.bits := if_pos hpos
      rw [← fitting_iff hpos, hclasses]
      simp only [reduceCtorEq, Option.some.injEq, exists_eq_left', false_or, and_iff_right_iff_imp]
      intro _
      exact (h.nodes _ _).complete s hs _ (by rw [hplace, hclasses])
    · have hclasses : classesOf r = none := if_neg hpos
      rw [hclasses]
      simp only [reduceCtorEq, false_and, exists_false, or_false, true_iff]
      intro t ht
      exact absurd ((BitSet.size_pos_iff _).mpr ⟨t, BitSet.mem_members.mp ht⟩) hpos

/-- **The index is faithful**: what is found for a node are the selectors that fit it, in
their order, and none of them twice. -/
theorem matchSelectors_selects (seq : List SelectorObject) (hseq : (seq.map (·.ref)).Nodup)
    (id : Option String) (type : String) (htype : type ≠ "") (classes : Option BitSet) :
    ((partitionAll seq).matchSelectors id (some type) classes).Sublist seq ∧
      ((partitionAll seq).matchSelectors id (some type) classes).Nodup ∧
      ∀ s ∈ seq, s ∈ (partitionAll seq).matchSelectors id (some type) classes ↔ Selects id type classes s := by
  have h := filed_partitionAll seq
  set st := partitionAll seq
  have hperm := flatMap_filter_perm place seq ((nodup_visited h id type classes).map (Option.some_injective Path))
  rw [List.flatMap_map] at hperm
  have hsorted : (((st.visited id type classes).flatMap (filed seq)).mergeSort
      fun o1 o2 => st.ordinals o1.ref ≤ st.ordinals o2.ref) = _ := sorted_eq h hseq hperm
  rw [matchSelectors_eq h id htype classes, hsorted]
  refine ⟨List.filter_sublist, (hseq.of_map).filter _, fun s hs => ?_⟩
  rw [List.mem_filter, ← place_mem_visited h hs id htype classes]
  simp only [hs, true_and, decide_eq_true_eq, List.mem_map]
  constructor
  · rintro ⟨path, hpath, heq⟩
    exact ⟨path, heq.symm, hpath⟩
  · rintro ⟨path, heq, hpath⟩
    exact ⟨path, hpath, heq.symm⟩

/-- The selectors `A#x.c` and `*.c`, and a node `B` with the classes 0 and 70. -/
theorem matchSelectors_selects_instance :
    (⟨1, .simple ⟨"*", GrownSet.empty.add 70, "", .empty, .inherit⟩⟩ : SelectorObject) ∈
        (partitionAll [⟨0, .simple ⟨"A", GrownSet.empty.add 70, "x", .empty, .inherit⟩⟩,
          ⟨1, .simple ⟨"*", GrownSet.empty.add 70, "", .empty, .inherit⟩⟩]).matchSelectors (some "x")
            (some "B") (some ((GrownSet.empty.add 0).add 70).set) ↔
      Selects (some "x") "B" (some ((GrownSet.empty.add 0).add 70).set)
        ⟨1, .simple ⟨"*", GrownSet.empty.add 70, "", .empty, .inherit⟩⟩ := by
  exact (matchSelectors_selects _ (by decide) (some "x") "B" (by decide) _).2.2 _ (.tail _ (.head _))

/-- For a node without a type nothing is found, not even `*`, and a selector that has been
filed twice is found twice. -/
theorem matchSelectors_misses :
    (¬ ∀ (seq : List SelectorObject) (id : Option String) (type : String) (classes : Option BitSet),
      ∀ s ∈ seq, s ∈ (partitionAll seq).matchSelectors id (some type) classes ↔ Selects id type classes s) ∧
    ¬ ∀ (seq : List SelectorObject) (id : Option String) (type : String) (classes : Option BitSet),
      ((partitionAll seq).matchSelectors id (some type) classes).Nodup := by
  constructor
  · intro h
    have hstar := (h [⟨0, .simple ⟨"*", .empty, "", .empty, .inherit⟩⟩] none "" none _
      (List.mem_singleton_self _)).mpr ⟨.inl rfl, .inl rfl, ?_⟩
    · simp [matchSelectors] at hstar
    · intro t ht
      have := (BitSet.mem_members.mp ht).lt
      simp [Selector.rightmost, GrownSet.empty] at this
  · intro h
    have htwice := h [⟨0, .simple ⟨"*", .empty, "", .empty, .inherit⟩⟩,
      ⟨0, .simple ⟨"*", .empty, "", .empty, .inherit⟩⟩] none "*" none
    have hgathered := (List.mergeSort_perm _ _).nodup_iff.mp htwice
    have hlist : List.Nodup [(⟨0, .simple ⟨"*", .empty, "", .empty, .inherit⟩⟩ : SelectorObject),
      ⟨0, .simple ⟨"*", .empty, "", .empty, .inherit⟩⟩] := hgathered
    simp at hlist

end JavaFX.SelectorPartitioning
