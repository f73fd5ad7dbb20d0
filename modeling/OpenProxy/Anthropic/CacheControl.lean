import OpenProxy.Data.JsonEdit

/-!
# The limit of cache breakpoints

A request to the Anthropic API may mark a few of its blocks with `cache_control`.  `enforceCacheControlLimit` removes the
marks that are too many, in five phases: of the system blocks and of the tools but the last of each, of the blocks of the
messages, and of what is left of the system blocks and of the tools.  `enforceCacheControlLimit_enforced` says that exactly
as many marks are removed, in this order, and that nothing else changes.
-/

namespace OpenProxy.Anthropic

open Json

/-! ### Counting -/

/-- `has_cache_control`. -/
def hasCacheControl (val : Json) : Bool := (val.get "cache_control".toList).isSome

/-- `get` and `as_array`: the items of a member. -/
def itemsOf (v : Json) (key : Text) : List Json := ((v.get key).bind asArray).getD []

def countBlocks (blocks : List Json) : Nat := blocks.countP hasCacheControl

def countMessages (messages : List Json) : Nat := (messages.map fun m => countBlocks (itemsOf m "content".toList)).sum

/-- `count_cache_controls`. -/
def countCacheControls (payload : Json) : Nat :=
  countBlocks (itemsOf payload "tools".toList) + countBlocks (itemsOf payload "system".toList) +
    countMessages (itemsOf payload "messages".toList)

/-! ### Removing -/

/-- `as_object_mut`, and the removal of `cache_control`. -/
def removeCacheControl (item : Json) (excess : Nat) : Json × Nat :=
  match item with
  | object fields =>
    if (getField fields "cache_control".toList).isSome then
      (object (removeField "cache_control".toList fields), excess - 1)
    else (item, excess)
  | _ => (item, excess)

/-- The loop over blocks, from an index on; one block may be skipped. -/
def stripBlocks (skip : Option Nat) : Nat → List Json → Nat → List Json × Nat
  | _, [], excess => ([], excess)
  | idx, item :: items, excess =>
    if excess = 0 then (item :: items, excess)
    else
      let edited := if skip = some idx then (item, excess) else removeCacheControl item excess
      let rest := stripBlocks skip (idx + 1) items edited.2
      (edited.1 :: rest.1, rest.2)

/-- `rposition(has_cache_control)`. -/
def lastMarked : List Json → Option Nat
  | [] => none
  | item :: items =>
    match lastMarked items with
    | some idx => some (idx + 1)
    | none => if hasCacheControl item then some 0 else none

/-- The body of phases 1 and 2. -/
def stripButLast (items : List Json) (excess : Nat) : List Json × Nat :=
  match lastMarked items with
  | some lastIdx => stripBlocks (some lastIdx) 0 items excess
  | none => (items, excess)

/-- The body of phases 4 and 5, and the inner loop of phase 3. -/
def stripAll (items : List Json) (excess : Nat) : List Json × Nat := stripBlocks none 0 items excess

/-- The outer loop of phase 3. -/
def stripMessages : List Json → Nat → List Json × Nat
  | [], excess => ([], excess)
  | msg :: messages, excess =>
    if excess = 0 then (msg :: messages, excess)
    else
      let edited := editMember "content".toList (editArray stripAll) msg excess
      let rest := stripMessages messages edited.2
      (edited.1 :: rest.1, rest.2)

/-- The limit, which is one less for a thread. -/
def effectiveLimit (payload : Json) (maxBlocks : Nat) : Nat :=
  match payload.get "thread".toList with
  | none | some null => maxBlocks
  | some _ => if maxBlocks > 0 then maxBlocks - 1 else maxBlocks

/-- `enforce_cache_control_limit`. -/
def enforceCacheControlLimit (payload : Json) (maxBlocks : Nat) : Json :=
  let maxBlocks := effectiveLimit payload maxBlocks
  let total := countCacheControls payload
  if total ≤ maxBlocks then payload
  else
    let (payload, excess) := editMember "system".toList (editArray stripButLast) payload (total - maxBlocks)
    if excess = 0 then payload
    else
      let (payload, excess) := editMember "tools".toList (editArray stripButLast) payload excess
      if excess = 0 then payload
      else
        let (payload, excess) := editMember "messages".toList (editArray stripMessages) payload excess
        if excess = 0 then payload
        else
          let (payload, excess) := editMember "system".toList (editArray stripAll) payload excess
          if excess = 0 then payload
          else (editMember "tools".toList (editArray stripAll) payload excess).1

/-! ### What may change -/

/-- A block that may have lost its mark. -/
def BlockKept (v v' : Json) : Prop :=
  v' = v ∨ ∃ fields, v = object fields ∧ v' = object (removeField "cache_control".toList fields)

/-- A message whose blocks may have lost their marks. -/
def MessageKept : Json → Json → Prop :=
  SameMembers fun key v v' => if key = "content".toList then SameItems BlockKept v v' else v' = v

/-- A payload whose blocks may have lost their marks. -/
def PayloadKept : Json → Json → Prop :=
  SameMembers fun key v v' =>
    if key = "system".toList ∨ key = "tools".toList then SameItems BlockKept v v'
    else if key = "messages".toList then SameItems MessageKept v v'
    else v' = v

theorem BlockKept.refl (v : Json) : BlockKept v v := Or.inl rfl

theorem BlockKept.trans (u v w : Json) (h : BlockKept u v) (h' : BlockKept v w) : BlockKept u w := by
  rcases h with rfl | ⟨fields, rfl, rfl⟩
  · exact h'
  · rcases h' with rfl | ⟨fields', hfields, rfl⟩
    · exact Or.inr ⟨fields, rfl, rfl⟩
    · cases hfields
      refine Or.inr ⟨fields, rfl, ?_⟩
      unfold removeField
      rw [List.filter_filter]
      simp

theorem MessageKept.refl (v : Json) : MessageKept v v := by
  refine SameMembers.refl (fun key v => ?_) v
  split
  · exact SameItems.refl BlockKept.refl v
  · rfl

theorem MessageKept.trans (u v w : Json) (h : MessageKept u v) (h' : MessageKept v w) : MessageKept u w := by
  refine SameMembers.trans (fun key u v w h h' => ?_) h h'
  split at h
  · rename_i hkey
    rw [if_pos hkey] at h' ⊢
    exact SameItems.trans BlockKept.trans h h'
  · rename_i hkey
    rw [if_neg hkey] at h' ⊢
    exact h'.trans h

/-- A member that is not edited is kept, whatever its name. -/
theorem memberKept_refl (key : Text) (v : Json) :
    if key = "system".toList ∨ key = "tools".toList then SameItems BlockKept v v
    else if key = "messages".toList then SameItems MessageKept v v
    else v = v := by
  split
  · exact SameItems.refl BlockKept.refl v
  · split
    · exact SameItems.refl MessageKept.refl v
    · rfl

theorem PayloadKept.refl (v : Json) : PayloadKept v v := SameMembers.refl memberKept_refl v

theorem PayloadKept.trans {u v w : Json} (h : PayloadKept u v) (h' : PayloadKept v w) : PayloadKept u w := by
  refine SameMembers.trans (fun key u v w h h' => ?_) h h'
  split at h
  · rename_i hkey
    rw [if_pos hkey] at h' ⊢
    exact SameItems.trans BlockKept.trans h h'
  · rename_i hkey
    rw [if_neg hkey] at h' ⊢
    split at h
    · rename_i hkey'
      rw [if_pos hkey'] at h' ⊢
      exact SameItems.trans MessageKept.trans h h'
    · rename_i hkey'
      rw [if_neg hkey'] at h' ⊢
      exact h'.trans h

/-! ### The loops -/

/-- The block at an index has a mark. -/
def Marked (items : List Json) (idx : Nat) : Prop := (items[idx]?).any hasCacheControl = true

/-- A removal keeps the block up to its mark and counts the mark. -/
theorem removeCacheControl_spec (item : Json) {excess : Nat} (hpos : excess ≠ 0) :
    BlockKept item (removeCacheControl item excess).1 ∧
      hasCacheControl (removeCacheControl item excess).1 = false ∧
      (if hasCacheControl item then 1 else 0) + (removeCacheControl item excess).2 = excess := by
  unfold removeCacheControl
  cases item with
  | object fields =>
    dsimp only
    split
    · rename_i hmark
      have hmarked : hasCacheControl (object fields) = true := hmark
      refine ⟨Or.inr ⟨fields, rfl, rfl⟩, ?_, ?_⟩
      · rw [hasCacheControl, get_object, getField_removeField]
        rfl
      · rw [if_pos hmarked]
        dsimp only
        omega
    · rename_i hmark
      have hmarked : hasCacheControl (object fields) = false := Bool.eq_false_iff.mpr hmark
      refine ⟨BlockKept.refl _, hmarked, ?_⟩
      rw [hmarked]
      simp
  | _ => exact ⟨BlockKept.refl _, rfl, Nat.zero_add _⟩

/-- What a loop over blocks does: it keeps the blocks up to their marks, counts the marks that it removes, leaves the block
that it skips, and leaves no other mark when there is something left to remove. -/
structure Stripped (skip : Option Nat) (idx : Nat) (items items' : List Json) (excess excess' : Nat) : Prop where
  kept : List.Forall₂ BlockKept items items'
  count : countBlocks items' + excess = countBlocks items + excess'
  le : excess' ≤ excess
  skipped : ∀ i, skip = some (idx + i) → items'[i]? = items[i]?
  left : excess' ≠ 0 → ∀ i, Marked items' i → skip = some (idx + i)
  fewer : ∀ i, Marked items' i → Marked items i
  same : excess = 0 → items' = items

theorem countBlocks_cons (item : Json) (items : List Json) :
    countBlocks (item :: items) = (if hasCacheControl item then 1 else 0) + countBlocks items := by
  unfold countBlocks
  rw [List.countP_cons, Nat.add_comm]

theorem stripped_refl (skip : Option Nat) (idx : Nat) (items : List Json) : Stripped skip idx items items 0 0 :=
  ⟨List.forall₂_same.mpr fun item _ => BlockKept.refl item, rfl, le_refl _, fun _ _ => rfl, fun h => absurd rfl h,
    fun _ h => h, fun _ => rfl⟩

theorem stripBlocks_spec (skip : Option Nat) (idx : Nat) (items : List Json) (excess : Nat) :
    Stripped skip idx items (stripBlocks skip idx items excess).1 excess (stripBlocks skip idx items excess).2 := by
  induction items generalizing idx excess with
  | nil => exact ⟨.nil, rfl, le_refl _, fun _ _ => rfl, fun _ _ h => absurd h (by simp [Marked, stripBlocks]),
      fun _ h => h, fun _ => rfl⟩
  | cons item items ih =>
    rw [stripBlocks]
    split
    · rename_i hzero
      rw [hzero]
      exact stripped_refl skip idx (item :: items)
    · rename_i hpos
      by_cases hskip : skip = some idx
      · rw [if_pos hskip]
        obtain ⟨hkept, hcount, hle, hskipped, hleft, hfewer, -⟩ := ih (idx + 1) excess
        refine ⟨.cons (BlockKept.refl item) hkept, ?_, hle, ?_, ?_, ?_, fun h => absurd h hpos⟩
        · rw [countBlocks_cons, countBlocks_cons]
          dsimp only at hcount ⊢
          omega
        · intro i hi
          cases i with
          | zero => rfl
          | succ i => exact hskipped i (by rw [hi, Nat.add_assoc, Nat.add_comm 1])
        · intro hexcess i hi
          cases i with
          | zero => exact hskip
          | succ i => rw [hleft hexcess i hi, Nat.add_assoc, Nat.add_comm 1]
        · intro i hi
          cases i with
          | zero => exact hi
          | succ i => exact hfewer i hi
      · rw [if_neg hskip]
        obtain ⟨hblock, hunmarked, hexcess⟩ := removeCacheControl_spec item hpos
        obtain ⟨hkept, hcount, hle, hskipped, hleft, hfewer, -⟩ := ih (idx + 1) (removeCacheControl item excess).2
        refine ⟨.cons hblock hkept, ?_, ?_, ?_, ?_, ?_, fun h => absurd h hpos⟩
        · rw [countBlocks_cons, countBlocks_cons, hunmarked]
          dsimp only at hcount ⊢
          simp only [Bool.false_eq_true, if_false]
          omega
        · dsimp only at hle ⊢
          omega
        · intro i hi
          cases i with
          | zero => exact absurd hi hskip
          | succ i => exact hskipped i (by rw [hi, Nat.add_assoc, Nat.add_comm 1])
        · intro hexcess i hi
          cases i with
          | zero =>
            unfold Marked at hi
            rw [List.getElem?_cons_zero, Option.any_some, hunmarked] at hi
            cases hi
          | succ i => rw [hleft hexcess i hi, Nat.add_assoc, Nat.add_comm 1]
        · intro i hi
          cases i with
          | zero =>
            unfold Marked at hi
            rw [List.getElem?_cons_zero, Option.any_some, hunmarked] at hi
            cases hi
          | succ i => exact hfewer i hi

theorem countBlocks_eq_zero {items : List Json} (h : ∀ i, ¬ Marked items i) : countBlocks items = 0 := by
  refine List.countP_eq_zero.mpr fun item hitem hmark => ?_
  obtain ⟨i, hi⟩ := List.mem_iff_getElem?.mp hitem
  refine h i ?_
  unfold Marked
  rwa [hi]

theorem lastMarked_spec (items : List Json) :
    (∀ i, lastMarked items = some i → Marked items i) ∧ (lastMarked items = none → ∀ i, ¬ Marked items i) := by
  induction items with
  | nil => exact ⟨fun i h => by simp [lastMarked] at h, fun _ i h => by simp [Marked] at h⟩
  | cons item items ih =>
    rw [lastMarked]
    cases hlast : lastMarked items with
    | some idx =>
      refine ⟨fun i hi => ?_, fun h => by cases h⟩
      cases hi
      exact ih.1 idx hlast
    | none =>
      by_cases hmark : hasCacheControl item = true
      · rw [if_pos hmark]
        refine ⟨fun i hi => ?_, fun h => by cases h⟩
        cases hi
        exact hmark
      · rw [if_neg hmark]
        refine ⟨fun i hi => (by cases hi), fun _ i hi => ?_⟩
        cases i with
        | zero => exact hmark hi
        | succ i => exact ih.2 hlast i hi

/-- Phases 1 and 2 skip the last block with a mark. -/
theorem stripButLast_spec (items : List Json) (excess : Nat) :
    Stripped (lastMarked items) 0 items (stripButLast items excess).1 excess (stripButLast items excess).2 := by
  unfold stripButLast
  cases hlast : lastMarked items with
  | some idx => exact stripBlocks_spec (some idx) 0 items excess
  | none =>
    have hnone := (lastMarked_spec items).2 hlast
    exact ⟨List.forall₂_same.mpr fun item _ => BlockKept.refl item, rfl, le_refl _, fun _ _ => rfl,
      fun _ i hi => absurd hi (hnone i), fun _ h => h, fun _ => rfl⟩

theorem stripAll_spec (items : List Json) (excess : Nat) :
    Stripped none 0 items (stripAll items excess).1 excess (stripAll items excess).2 := stripBlocks_spec none 0 items excess

theorem Stripped.countBlocks_eq_zero {items items' : List Json} {idx excess excess' : Nat}
    (h : Stripped none idx items items' excess excess') (hleft : excess' ≠ 0) : countBlocks items' = 0 :=
  Anthropic.countBlocks_eq_zero fun i hi => by cases h.left hleft i hi

/-- The items after an edit of a member. -/
theorem itemsOf_edit {f : List Json → Nat → List Json × Nat} (hnil : ∀ excess, f [] excess = ([], excess)) (v : Json)
    (key : Text) (excess : Nat) :
    itemsOf (editMember key (editArray f) v excess).1 key = (f (itemsOf v key) excess).1 ∧
      (editMember key (editArray f) v excess).2 = (f (itemsOf v key) excess).2 := by
  unfold itemsOf
  rw [get_editMember, editMember_snd]
  cases v.get key with
  | none => simp [hnil]
  | some value => cases value <;> simp [editArray, asArray, hnil]

theorem itemsOf_edit_of_ne {f : Json → Nat → Json × Nat} {key key' : Text} (h : key' ≠ key) (v : Json) (excess : Nat) :
    itemsOf (editMember key' f v excess).1 key = itemsOf v key := by
  unfold itemsOf
  rw [get_editMember_of_ne _ _ _ _ h]

/-- What phase 3 does. -/
structure StrippedMessages (messages messages' : List Json) (excess excess' : Nat) : Prop where
  kept : List.Forall₂ MessageKept messages messages'
  count : countMessages messages' + excess = countMessages messages + excess'
  le : excess' ≤ excess
  left : excess' ≠ 0 → countMessages messages' = 0

theorem countMessages_cons (msg : Json) (messages : List Json) :
    countMessages (msg :: messages) = countBlocks (itemsOf msg "content".toList) + countMessages messages := rfl

theorem stripMessages_spec (messages : List Json) (excess : Nat) :
    StrippedMessages messages (stripMessages messages excess).1 excess (stripMessages messages excess).2 := by
  induction messages generalizing excess with
  | nil => exact ⟨.nil, rfl, le_refl _, fun _ => rfl⟩
  | cons msg messages ih =>
    rw [stripMessages]
    split
    · rename_i hzero
      rw [hzero]
      exact ⟨List.forall₂_same.mpr fun m _ => MessageKept.refl m, rfl, le_refl _, fun h => absurd rfl h⟩
    · obtain ⟨hitems, hexcess⟩ := itemsOf_edit (f := stripAll) (fun _ => rfl) msg "content".toList excess
      have hblocks := stripAll_spec (itemsOf msg "content".toList) excess
      rw [← hitems, ← hexcess] at hblocks
      have hmessage : MessageKept msg (editMember "content".toList (editArray stripAll) msg excess).1 := by
        refine sameMembers_editMember (fun key v => ?_) msg excess fun value _ => ?_
        · split
          · exact SameItems.refl BlockKept.refl v
          · rfl
        · rw [if_pos rfl]
          exact sameItems_editArray value excess fun items => (stripAll_spec items excess).kept
      obtain ⟨hkept, hcount, hle, hleft⟩ := ih (editMember "content".toList (editArray stripAll) msg excess).2
      have hcount' := hblocks.count
      have hle' := hblocks.le
      refine ⟨.cons hmessage hkept, ?_, hle.trans hle', fun h => ?_⟩
      · rw [countMessages_cons, countMessages_cons]
        dsimp only at hcount ⊢
        omega
      · rw [countMessages_cons, hleft h, hblocks.countBlocks_eq_zero]
        dsimp only at h hle
        omega

/-! ### The phases -/

/-- The five phases without the early ends. -/
def phases (payload : Json) (excess : Nat) : Json × Nat :=
  let first := editMember "system".toList (editArray stripButLast) payload excess
  let second := editMember "tools".toList (editArray stripButLast) first.1 first.2
  let third := editMember "messages".toList (editArray stripMessages) second.1 second.2
  let fourth := editMember "system".toList (editArray stripAll) third.1 third.2
  editMember "tools".toList (editArray stripAll) fourth.1 fourth.2

/-- With nothing left to remove, an edit changes nothing. -/
theorem edit_zero {f : List Json → Nat → List Json × Nat} (hf : ∀ items, f items 0 = (items, 0)) (key : Text) (v : Json) :
    editMember key (editArray f) v 0 = (v, 0) := by
  refine editMember_self (fun value => ?_) key v
  cases value <;> simp [editArray, hf]

theorem stripBlocks_zero (skip : Option Nat) (idx : Nat) (items : List Json) : stripBlocks skip idx items 0 = (items, 0) := by
  cases items <;> rfl

theorem stripButLast_zero (items : List Json) : stripButLast items 0 = (items, 0) := by
  unfold stripButLast
  split
  · exact stripBlocks_zero _ 0 items
  · rfl

theorem stripAll_zero (items : List Json) : stripAll items 0 = (items, 0) := stripBlocks_zero none 0 items

theorem stripMessages_zero (messages : List Json) : stripMessages messages 0 = (messages, 0) := by
  cases messages <;> rfl

theorem enforceCacheControlLimit_eq (payload : Json) (maxBlocks : Nat) :
    enforceCacheControlLimit payload maxBlocks =
      if countCacheControls payload ≤ effectiveLimit payload maxBlocks then payload
      else (phases payload (countCacheControls payload - effectiveLimit payload maxBlocks)).1 := by
  unfold enforceCacheControlLimit phases
  dsimp only
  split
  · rfl
  · split
    · rename_i hzero
      simp only [hzero, edit_zero stripButLast_zero, edit_zero stripAll_zero, edit_zero stripMessages_zero]
    · split
      · rename_i hzero
        simp only [hzero, edit_zero stripAll_zero, edit_zero stripMessages_zero]
      · split
        · rename_i hzero
          simp only [hzero, edit_zero stripAll_zero]
        · split
          · rename_i hzero
            simp only [hzero, edit_zero stripAll_zero]
          · rfl

/-- The limit is kept as it should be: as many marks are left as are allowed, only marks are removed, those of the messages
after those of the system blocks and of the tools but the last of each, and these two after those of the messages. -/
structure Enforced (payload payload' : Json) (limit : Nat) : Prop where
  count : countCacheControls payload' = min (countCacheControls payload) limit
  kept : PayloadKept payload payload'
  messages : countMessages (itemsOf payload' "messages".toList) < countMessages (itemsOf payload "messages".toList) →
    ∀ key ∈ ["system".toList, "tools".toList], ∀ i, Marked (itemsOf payload' key) i →
      lastMarked (itemsOf payload key) = some i
  last : ∀ key ∈ ["system".toList, "tools".toList], ∀ i, lastMarked (itemsOf payload key) = some i →
    ¬ Marked (itemsOf payload' key) i → countMessages (itemsOf payload' "messages".toList) = 0

theorem edit_butLast (v : Json) (key : Text) (excess : Nat) :
    Stripped (lastMarked (itemsOf v key)) 0 (itemsOf v key)
      (itemsOf (editMember key (editArray stripButLast) v excess).1 key) excess
      (editMember key (editArray stripButLast) v excess).2 := by
  obtain ⟨hitems, hexcess⟩ := itemsOf_edit (f := stripButLast) (fun _ => rfl) v key excess
  rw [hitems, hexcess]
  exact stripButLast_spec _ excess

theorem edit_all (v : Json) (key : Text) (excess : Nat) :
    Stripped none 0 (itemsOf v key) (itemsOf (editMember key (editArray stripAll) v excess).1 key) excess
      (editMember key (editArray stripAll) v excess).2 := by
  obtain ⟨hitems, hexcess⟩ := itemsOf_edit (f := stripAll) (fun _ => rfl) v key excess
  rw [hitems, hexcess]
  exact stripAll_spec _ excess

theorem edit_messages (v : Json) (key : Text) (excess : Nat) :
    StrippedMessages (itemsOf v key) (itemsOf (editMember key (editArray stripMessages) v excess).1 key) excess
      (editMember key (editArray stripMessages) v excess).2 := by
  obtain ⟨hitems, hexcess⟩ := itemsOf_edit (f := stripMessages) (fun _ => rfl) v key excess
  rw [hitems, hexcess]
  exact stripMessages_spec _ excess

/-- The items of the three members after the phases. -/
theorem phases_spec (payload : Json) (excess : Nat) :
    ∃ system tools messages first second third fourth,
      Stripped (lastMarked (itemsOf payload "system".toList)) 0 (itemsOf payload "system".toList) system excess first ∧
      Stripped (lastMarked (itemsOf payload "tools".toList)) 0 (itemsOf payload "tools".toList) tools first second ∧
      StrippedMessages (itemsOf payload "messages".toList) messages second third ∧
      Stripped none 0 system (itemsOf (phases payload excess).1 "system".toList) third fourth ∧
      Stripped none 0 tools (itemsOf (phases payload excess).1 "tools".toList) fourth (phases payload excess).2 ∧
      itemsOf (phases payload excess).1 "messages".toList = messages := by
  have hst : "system".toList ≠ "tools".toList := by decide
  have hsm : "system".toList ≠ "messages".toList := by decide
  have htm : "tools".toList ≠ "messages".toList := by decide
  have h₁ := edit_butLast payload "system".toList excess
  generalize hr₁ : editMember "system".toList (editArray stripButLast) payload excess = r₁ at h₁
  have h₂ := edit_butLast r₁.1 "tools".toList r₁.2
  generalize hr₂ : editMember "tools".toList (editArray stripButLast) r₁.1 r₁.2 = r₂ at h₂
  have h₃ := edit_messages r₂.1 "messages".toList r₂.2
  generalize hr₃ : editMember "messages".toList (editArray stripMessages) r₂.1 r₂.2 = r₃ at h₃
  have h₄ := edit_all r₃.1 "system".toList r₃.2
  generalize hr₄ : editMember "system".toList (editArray stripAll) r₃.1 r₃.2 = r₄ at h₄
  have h₅ := edit_all r₄.1 "tools".toList r₄.2
  generalize hr₅ : editMember "tools".toList (editArray stripAll) r₄.1 r₄.2 = r₅ at h₅
  have hphases : phases payload excess = r₅ := by
    unfold phases
    dsimp only
    rw [hr₁, hr₂, hr₃, hr₄, hr₅]
  -- What the other edits leave of each member.
  have htools : itemsOf r₁.1 "tools".toList = itemsOf payload "tools".toList := by
    rw [← hr₁, itemsOf_edit_of_ne hst]
  have hmessages : itemsOf r₂.1 "messages".toList = itemsOf payload "messages".toList := by
    rw [← hr₂, itemsOf_edit_of_ne htm, ← hr₁, itemsOf_edit_of_ne hsm]
  have hsystem : itemsOf r₃.1 "system".toList = itemsOf r₁.1 "system".toList := by
    rw [← hr₃, itemsOf_edit_of_ne hsm.symm, ← hr₂, itemsOf_edit_of_ne hst.symm]
  have htools' : itemsOf r₄.1 "tools".toList = itemsOf r₂.1 "tools".toList := by
    rw [← hr₄, itemsOf_edit_of_ne hst, ← hr₃, itemsOf_edit_of_ne htm.symm]
  have hsystem' : itemsOf r₅.1 "system".toList = itemsOf r₄.1 "system".toList := by
    rw [← hr₅, itemsOf_edit_of_ne hst.symm]
  have hmessages' : itemsOf r₅.1 "messages".toList = itemsOf r₃.1 "messages".toList := by
    rw [← hr₅, itemsOf_edit_of_ne htm, ← hr₄, itemsOf_edit_of_ne hsm]
  rw [hphases]
  rw [htools] at h₂
  rw [hmessages] at h₃
  rw [hsystem] at h₄
  rw [htools'] at h₅
  rw [hsystem']
  exact ⟨_, _, _, _, _, _, _, h₁, h₂, h₃, h₄, h₅, hmessages'⟩

/-- An edit of blocks keeps the rest of the payload. -/
theorem payloadKept_blocks {f : List Json → Nat → List Json × Nat} {key : Text} (v : Json) (excess : Nat)
    (hkey : key = "system".toList ∨ key = "tools".toList) (hf : ∀ items, List.Forall₂ BlockKept items (f items excess).1) :
    PayloadKept v (editMember key (editArray f) v excess).1 := by
  refine sameMembers_editMember memberKept_refl v excess fun value _ => ?_
  rw [if_pos hkey]
  exact sameItems_editArray value excess hf

theorem payloadKept_messages (v : Json) (excess : Nat) :
    PayloadKept v (editMember "messages".toList (editArray stripMessages) v excess).1 := by
  refine sameMembers_editMember memberKept_refl v excess fun value _ => ?_
  rw [if_neg (by decide), if_pos rfl]
  exact sameItems_editArray value excess fun items => (stripMessages_spec items excess).kept

theorem phases_kept (payload : Json) (excess : Nat) : PayloadKept payload (phases payload excess).1 := by
  have hbutLast : ∀ (r : Json × Nat) (key : Text), key = "system".toList ∨ key = "tools".toList →
      PayloadKept payload r.1 → PayloadKept payload (editMember key (editArray stripButLast) r.1 r.2).1 :=
    fun r _ hkey h => h.trans (payloadKept_blocks r.1 r.2 hkey fun items => (stripButLast_spec items r.2).kept)
  have hall : ∀ (r : Json × Nat) (key : Text), key = "system".toList ∨ key = "tools".toList →
      PayloadKept payload r.1 → PayloadKept payload (editMember key (editArray stripAll) r.1 r.2).1 :=
    fun r _ hkey h => h.trans (payloadKept_blocks r.1 r.2 hkey fun items => (stripAll_spec items r.2).kept)
  have hmessages : ∀ r : Json × Nat, PayloadKept payload r.1 →
      PayloadKept payload (editMember "messages".toList (editArray stripMessages) r.1 r.2).1 :=
    fun r h => h.trans (payloadKept_messages r.1 r.2)
  unfold phases
  dsimp only
  refine hall _ _ (Or.inr rfl) (hall _ _ (Or.inl rfl) (hmessages _ (hbutLast _ _ (Or.inr rfl) ?_)))
  exact hbutLast (payload, excess) _ (Or.inl rfl) (PayloadKept.refl payload)

/-- The limit of cache breakpoints is enforced. -/
theorem enforceCacheControlLimit_enforced (payload : Json) (maxBlocks : Nat) :
    Enforced payload (enforceCacheControlLimit payload maxBlocks) (effectiveLimit payload maxBlocks) := by
  rw [enforceCacheControlLimit_eq]
  split
  · rename_i hle
    have hlast : ∀ key : Text, ∀ i, lastMarked (itemsOf payload key) = some i → Marked (itemsOf payload key) i :=
      fun key => (lastMarked_spec (itemsOf payload key)).1
    exact ⟨(Nat.min_eq_left hle).symm, PayloadKept.refl payload, fun h => absurd h (lt_irrefl _),
      fun key _ i hi hnot => absurd (hlast key i hi) hnot⟩
  · rename_i hgt
    generalize hexcess : countCacheControls payload - effectiveLimit payload maxBlocks = excess
    obtain ⟨system, tools, messages, first, second, third, fourth, h₁, h₂, h₃, h₄, h₅, hmessages⟩ :=
      phases_spec payload excess
    have hkept := phases_kept payload excess
    generalize hresult : phases payload excess = result at *
    have hc₁ := h₁.count
    have hc₂ := h₂.count
    have hc₃ := h₃.count
    have hc₄ := h₄.count
    have hc₅ := h₅.count
    have hl₁ := h₁.le
    have hl₂ := h₂.le
    have hl₃ := h₃.le
    have hl₄ := h₄.le
    have hl₅ := h₅.le
    unfold countCacheControls at hgt hexcess
    -- If there were something left to remove, no mark would be left.
    have hzero : result.2 = 0 := by
      by_contra hne
      have htools := h₅.countBlocks_eq_zero hne
      have hsystem := h₄.countBlocks_eq_zero (by omega)
      have hnone := h₃.left (by omega)
      omega
    constructor
    · unfold countCacheControls
      rw [hmessages]
      omega
    · exact hkept
    · intro hfewer key hkey i hi
      rw [hmessages] at hfewer
      simp only [List.mem_cons, List.not_mem_nil, or_false] at hkey
      rcases hkey with rfl | rfl
      · have hleft := h₁.left (by omega) i (h₄.fewer i hi)
        rwa [Nat.zero_add] at hleft
      · have hleft := h₂.left (by omega) i (h₅.fewer i hi)
        rwa [Nat.zero_add] at hleft
    · intro key hkey i hi hnot
      rw [hmessages]
      simp only [List.mem_cons, List.not_mem_nil, or_false] at hkey
      -- The last mark was left by the first two phases, so that it was removed by the last two.
      rcases hkey with rfl | rfl
      · have hmark := (lastMarked_spec (itemsOf payload "system".toList)).1 i hi
        have hkeep : Marked system i := by
          unfold Marked
          rwa [h₁.skipped i (by rw [hi, Nat.zero_add])]
        refine h₃.left fun hthird => hnot ?_
        rwa [h₄.same hthird]
      · have hmark := (lastMarked_spec (itemsOf payload "tools".toList)).1 i hi
        have hkeep : Marked tools i := by
          unfold Marked
          rwa [h₂.skipped i (by rw [hi, Nat.zero_add])]
        refine h₃.left fun hthird => hnot ?_
        rwa [h₅.same (by omega)]

end OpenProxy.Anthropic
