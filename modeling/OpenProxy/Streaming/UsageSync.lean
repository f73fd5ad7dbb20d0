import OpenProxy.Compression.TokenEstimate
import OpenProxy.Upstream.UsageMerge

/-!
# The discount of an injected system prefix

The model of `sync_chunk_metadata_to_accumulator`.  Where a system prefix has been injected, its tokens are taken off the
prompt count of the usage, and the result is what the usage of the next chunk is merged into.  So a count is discounted
once for each chunk that follows, and the discount is the one of a single chunk only if the last chunk repeats the largest
count (`discountedOnce_iff`).
-/

namespace OpenProxy.Streaming

open Upstream Compression

/-- What `ResponseAccumulator` holds of the metadata. -/
structure AccumulatedMetadata where
  usage : Option OpenAIUsage
  stopReason : Option Text
  deriving DecidableEq, Repr

/-- What `StreamingState` holds of the metadata, with the accumulator where there is one. -/
structure StreamMetadata where
  usage : Option OpenAIUsage
  stopReason : Option Text
  acc : Option AccumulatedMetadata
  deriving DecidableEq, Repr

/-- The metadata of a chunk, and whether its stop reason replaces the one before. -/
structure ChunkMetadata where
  usage : Option OpenAIUsage
  stopReason : Option Text
  overwriteStopReason : Bool
  deriving DecidableEq, Repr

/-- The prefix as a message. -/
def prefixMessage (systemPrefix : Text) : OpenAIMessage where
  role := "system".toList
  content := some (.string systemPrefix)
  name := none
  toolCallId := none
  toolCalls := none
  extra := []

def prefixTokens (systemPrefix : Text) : Nat := estimatePromptTokens [prefixMessage systemPrefix]

def clientEst (messages : List OpenAIMessage) : Nat := max (estimatePromptTokens messages) 1

/-- The discount; the sum is cut to 32 bits. -/
def discount (prefixTokens clientEst : Nat) (merged : OpenAIUsage) : OpenAIUsage :=
  let promptTokens := max (merged.promptTokens - prefixTokens) clientEst
  { merged with promptTokens, totalTokens := (promptTokens + merged.completionTokens) % (u32Max + 1) }

/-- The usage of the stream after the one of a chunk. -/
def syncUsage (activeSystemPrefix : Option Text) (messages : List OpenAIMessage) (usage : Option OpenAIUsage)
    (new : OpenAIUsage) : OpenAIUsage :=
  let merged := (usage.map fun existing => mergeUsage existing new).getD new
  match activeSystemPrefix with
  | some systemPrefix => discount (prefixTokens systemPrefix) (clientEst messages) merged
  | none => merged

/-- The accumulator takes the metadata of the stream. -/
def AccumulatedMetadata.sync (a : AccumulatedMetadata) (usage : Option OpenAIUsage) (stopReason : Option Text) :
    AccumulatedMetadata where
  usage := match usage with
    | some u => setUsage a.usage u
    | none => a.usage
  stopReason := a.stopReason.or stopReason

/-- `sync_chunk_metadata_to_accumulator`. -/
def syncChunkMetadataToAccumulator (activeSystemPrefix : Option Text) (messages : List OpenAIMessage)
    (state : StreamMetadata) (chunk : ChunkMetadata) : StreamMetadata :=
  let usage := match chunk.usage with
    | some new => some (syncUsage activeSystemPrefix messages state.usage new)
    | none => state.usage
  let stopReason :=
    if (chunk.overwriteStopReason && chunk.stopReason.isSome) || (chunk.stopReason.isSome && state.stopReason.isNone) then
      chunk.stopReason
    else state.stopReason
  { usage, stopReason, acc := state.acc.map fun a => a.sync usage stopReason }

/-- The state after a sequence of chunks, where a prefix is active. -/
def syncChunks (systemPrefix : Text) (messages : List OpenAIMessage) (acc : Option AccumulatedMetadata)
    (chunks : List ChunkMetadata) : StreamMetadata :=
  chunks.foldl (syncChunkMetadataToAccumulator (some systemPrefix) messages) ⟨none, none, acc⟩

/-! ### The counts of a run -/

/-- The usages that a sequence of chunks reports. -/
def reported (chunks : List ChunkMetadata) : List OpenAIUsage := chunks.filterMap (·.usage)

/-- The largest count less the discount, and at least the estimate. -/
def discountedPrompt (prefixTokens clientEst : Nat) (us : List OpenAIUsage) : Nat :=
  (us.map fun u => u.promptTokens - prefixTokens).foldr max clientEst

/-- The largest completion count. -/
def largestCompletion (us : List OpenAIUsage) : Nat := (us.map OpenAIUsage.completionTokens).foldr max 0

section

variable {k est : Nat}

theorem discountedPrompt_le_iff {us : List OpenAIUsage} {b : Nat} :
    discountedPrompt k est us ≤ b ↔ est ≤ b ∧ ∀ u ∈ us, u.promptTokens - k ≤ b := by
  induction us with
  | nil => simp [discountedPrompt]
  | cons u us ih =>
    have hcons : discountedPrompt k est (u :: us) = max (u.promptTokens - k) (discountedPrompt k est us) := rfl
    rw [hcons, Nat.max_le, ih, List.forall_mem_cons]
    tauto

theorem discountedPrompt_append (us : List OpenAIUsage) (u : OpenAIUsage) :
    discountedPrompt k est (us ++ [u]) = max (discountedPrompt k est us) (u.promptTokens - k) := by
  apply Nat.le_antisymm
  · obtain ⟨hest, hus⟩ := discountedPrompt_le_iff.mp (Nat.le_refl (discountedPrompt k est us))
    apply discountedPrompt_le_iff.mpr
    refine ⟨by omega, fun v hv => ?_⟩
    rcases List.mem_append.mp hv with hv | hv
    · have := hus v hv
      omega
    · rw [List.mem_singleton.mp hv]
      omega
  · obtain ⟨hest, hus⟩ := discountedPrompt_le_iff.mp (Nat.le_refl (discountedPrompt k est (us ++ [u])))
    have hu := hus u (List.mem_append_right _ (List.mem_singleton.mpr rfl))
    have hrest : discountedPrompt k est us ≤ discountedPrompt k est (us ++ [u]) :=
      discountedPrompt_le_iff.mpr ⟨hest, fun v hv => hus v (List.mem_append_left _ hv)⟩
    omega

theorem largestCompletion_append (us : List OpenAIUsage) (u : OpenAIUsage) :
    largestCompletion (us ++ [u]) = max (largestCompletion us) u.completionTokens := by
  induction us with
  | nil => simp [largestCompletion]
  | cons v us ih =>
    have hcons : ∀ us, largestCompletion (v :: us) = max v.completionTokens (largestCompletion us) := fun _ => rfl
    rw [List.cons_append, hcons, hcons, ih]
    omega

theorem discountedPrompt_le_append (us vs : List OpenAIUsage) :
    discountedPrompt k est us ≤ discountedPrompt k est (us ++ vs) := by
  obtain ⟨hest, hus⟩ := discountedPrompt_le_iff.mp (Nat.le_refl (discountedPrompt k est (us ++ vs)))
  exact discountedPrompt_le_iff.mpr ⟨hest, fun u hu => hus u (List.mem_append_left _ hu)⟩

theorem largestCompletion_le_append (us vs : List OpenAIUsage) :
    largestCompletion us ≤ largestCompletion (us ++ vs) := by
  induction us with
  | nil => exact Nat.zero_le _
  | cons u us ih =>
    have hcons : ∀ us, largestCompletion (u :: us) = max u.completionTokens (largestCompletion us) := fun _ => rfl
    rw [List.cons_append, hcons, hcons]
    omega

end

section

variable (systemPrefix : Text) (messages : List OpenAIMessage)

/-- The usage after a sequence of usages. -/
def syncUsages (us : List OpenAIUsage) : Option OpenAIUsage :=
  us.foldl (fun usage new => some (syncUsage (some systemPrefix) messages usage new)) none

/-- A chunk without a usage leaves the usage as it is. -/
theorem usage_syncChunks (acc : Option AccumulatedMetadata) (chunks : List ChunkMetadata) :
    (syncChunks systemPrefix messages acc chunks).usage = syncUsages systemPrefix messages (reported chunks) := by
  have hfrom : ∀ state : StreamMetadata,
      (chunks.foldl (syncChunkMetadataToAccumulator (some systemPrefix) messages) state).usage =
        (reported chunks).foldl (fun usage new => some (syncUsage (some systemPrefix) messages usage new)) state.usage := by
    induction chunks with
    | nil => exact fun _ => rfl
    | cons chunk chunks ih =>
      intro state
      rw [List.foldl_cons, ih]
      unfold reported
      rw [List.filterMap_cons]
      unfold syncChunkMetadataToAccumulator
      cases chunk.usage with
      | none => rfl
      | some new => rfl
  exact hfrom _

/-- A count of a usage that there may be. -/
def countOf (count : OpenAIUsage → Nat) (usage : Option OpenAIUsage) : Nat := (usage.map count).getD 0

/-- The step lemma. -/
theorem syncUsage_counts (usage : Option OpenAIUsage) (new : OpenAIUsage) :
    (syncUsage (some systemPrefix) messages usage new).promptTokens =
        max (max (countOf OpenAIUsage.promptTokens usage) new.promptTokens - prefixTokens systemPrefix)
          (clientEst messages) ∧
      (syncUsage (some systemPrefix) messages usage new).completionTokens =
        max (countOf OpenAIUsage.completionTokens usage) new.completionTokens ∧
      (syncUsage (some systemPrefix) messages usage new).totalTokens =
        ((syncUsage (some systemPrefix) messages usage new).promptTokens +
          (syncUsage (some systemPrefix) messages usage new).completionTokens) % (u32Max + 1) := by
  cases usage with
  | none =>
    refine ⟨?_, ?_, rfl⟩
    · show max (new.promptTokens - _) _ = max (max 0 new.promptTokens - _) _
      rw [Nat.zero_max]
    · exact (Nat.zero_max _).symm
  | some existing =>
    refine ⟨?_, rfl, rfl⟩
    show max ((mergeUsage existing new).promptTokens - _) _ = _
    rw [promptTokens_mergeUsage]
    rfl

variable {systemPrefix messages}

theorem syncUsages_append (us : List OpenAIUsage) (u : OpenAIUsage) :
    syncUsages systemPrefix messages (us ++ [u]) =
      some (syncUsage (some systemPrefix) messages (syncUsages systemPrefix messages us) u) := by
  rw [syncUsages, List.foldl_append]
  rfl

/-- The count never exceeds the one that is discounted once. -/
theorem promptTokens_syncUsages_le (systemPrefix : Text) (messages : List OpenAIMessage) (us : List OpenAIUsage) :
    countOf OpenAIUsage.promptTokens (syncUsages systemPrefix messages us) ≤
      discountedPrompt (prefixTokens systemPrefix) (clientEst messages) us := by
  induction us using List.reverseRecOn with
  | nil => exact Nat.zero_le _
  | append_singleton us u ih =>
    have hest := (discountedPrompt_le_iff.mp
      (Nat.le_refl (discountedPrompt (prefixTokens systemPrefix) (clientEst messages) us))).1
    have hcount := (syncUsage_counts systemPrefix messages (syncUsages systemPrefix messages us) u).1
    rw [syncUsages_append, discountedPrompt_append]
    show (syncUsage _ _ _ _).promptTokens ≤ _
    omega

theorem completionTokens_syncUsages (us : List OpenAIUsage) :
    countOf OpenAIUsage.completionTokens (syncUsages systemPrefix messages us) = largestCompletion us := by
  induction us using List.reverseRecOn with
  | nil => rfl
  | append_singleton us u ih =>
    rw [syncUsages_append, largestCompletion_append, ← ih]
    exact (syncUsage_counts _ _ _ u).2.1

/-- Where nothing is taken off, the count is the largest one. -/
theorem promptTokens_syncUsages_of_zero (messages : List OpenAIMessage) (hzero : prefixTokens systemPrefix = 0) (us : List OpenAIUsage) :
    max (countOf OpenAIUsage.promptTokens (syncUsages systemPrefix messages us)) (clientEst messages) =
      discountedPrompt (prefixTokens systemPrefix) (clientEst messages) us := by
  induction us using List.reverseRecOn with
  | nil => exact Nat.zero_max _
  | append_singleton us u ih =>
    have hcount := (syncUsage_counts systemPrefix messages (syncUsages systemPrefix messages us) u).1
    rw [syncUsages_append, discountedPrompt_append, ← ih]
    show max (syncUsage _ _ _ _).promptTokens _ = _
    omega

/-! ### The discount is applied once -/

variable (systemPrefix messages)

/-- The counts of the run, where the discount is applied once: the prompt count is the largest one less the prefix, the
total is the sum of the parts, and no sum that was made overflowed. -/
def DiscountedOnce (acc : Option AccumulatedMetadata) (chunks : List ChunkMetadata) : Prop :=
  (∀ u ∈ (syncChunks systemPrefix messages acc chunks).usage,
    u.promptTokens = discountedPrompt (prefixTokens systemPrefix) (clientEst messages) (reported chunks) ∧
      u.totalTokens = u.promptTokens + u.completionTokens) ∧
    ∀ n, ∀ u ∈ (syncChunks systemPrefix messages acc (chunks.take n)).usage,
      u.promptTokens + u.completionTokens ≤ u32Max

/-- The last usage repeats the largest prompt count, as far as the discount leaves anything of it, and the largest counts
fit together. -/
def Repeated (chunks : List ChunkMetadata) : Prop :=
  (prefixTokens systemPrefix = 0 ∨ ∀ last ∈ (reported chunks).getLast?, ∀ u ∈ reported chunks,
      u.promptTokens - prefixTokens systemPrefix ≤
        max (last.promptTokens - prefixTokens systemPrefix) (clientEst messages)) ∧
    (reported chunks ≠ [] →
      discountedPrompt (prefixTokens systemPrefix) (clientEst messages) (reported chunks) +
        largestCompletion (reported chunks) ≤ u32Max)

variable {systemPrefix messages}

theorem prompt_discounted_iff (us : List OpenAIUsage) (last : OpenAIUsage) :
    countOf OpenAIUsage.promptTokens (syncUsages systemPrefix messages (us ++ [last])) =
        discountedPrompt (prefixTokens systemPrefix) (clientEst messages) (us ++ [last]) ↔
      prefixTokens systemPrefix = 0 ∨ ∀ u ∈ us ++ [last],
        u.promptTokens - prefixTokens systemPrefix ≤
          max (last.promptTokens - prefixTokens systemPrefix) (clientEst messages) := by
  have hcount := (syncUsage_counts systemPrefix messages (syncUsages systemPrefix messages us) last).1
  have hle := promptTokens_syncUsages_le systemPrefix messages us
  obtain ⟨hest, hus⟩ := discountedPrompt_le_iff.mp
    (Nat.le_refl (discountedPrompt (prefixTokens systemPrefix) (clientEst messages) us))
  rw [syncUsages_append, discountedPrompt_append]
  show (syncUsage _ _ _ _).promptTokens = _ ↔ _
  constructor
  · intro heq
    by_cases hzero : prefixTokens systemPrefix = 0
    · exact .inl hzero
    · refine .inr fun u hu => ?_
      rcases List.mem_append.mp hu with hu | hu
      · -- a larger count would have been discounted twice
        have hu := hus u hu
        omega
      · rw [List.mem_singleton.mp hu]
        omega
  · rintro (hzero | hlast)
    · have hlargest := promptTokens_syncUsages_of_zero messages hzero us
      omega
    · have hrest : discountedPrompt (prefixTokens systemPrefix) (clientEst messages) us ≤
          max (last.promptTokens - prefixTokens systemPrefix) (clientEst messages) :=
        discountedPrompt_le_iff.mpr ⟨by omega, fun u hu => hlast u (List.mem_append_left _ hu)⟩
      omega

/-- The sums of the parts are bounded by the one of the largest counts. -/
theorem sum_syncUsages_le {us vs : List OpenAIUsage} {u : OpenAIUsage} (hu : u ∈ syncUsages systemPrefix messages us) :
    u.promptTokens + u.completionTokens ≤
      discountedPrompt (prefixTokens systemPrefix) (clientEst messages) (us ++ vs) + largestCompletion (us ++ vs) := by
  have hprompt := promptTokens_syncUsages_le systemPrefix messages us
  have hcompletion : countOf OpenAIUsage.completionTokens (syncUsages systemPrefix messages us) = largestCompletion us :=
    completionTokens_syncUsages us
  rw [Option.mem_def.mp hu] at hprompt hcompletion
  have hgrown := @discountedPrompt_le_append (prefixTokens systemPrefix) (clientEst messages) us vs
  have hgrown' := largestCompletion_le_append us vs
  change u.promptTokens ≤ _ at hprompt
  change u.completionTokens = _ at hcompletion
  omega

/-- The discount is applied once, and no sum overflows, exactly where the last usage repeats the largest prompt count and
the largest counts fit together. -/
theorem discountedOnce_iff (systemPrefix : Text) (messages : List OpenAIMessage) (acc : Option AccumulatedMetadata)
    (chunks : List ChunkMetadata) :
    DiscountedOnce systemPrefix messages acc chunks ↔ Repeated systemPrefix messages chunks := by
  have hsplit : ∀ n, reported (chunks.take n) ++ reported (chunks.drop n) = reported chunks := by
    intro n
    unfold reported
    rw [← List.filterMap_append, List.take_append_drop]
  have hbound : ∀ n, ∀ u ∈ syncUsages systemPrefix messages (reported (chunks.take n)),
      u.promptTokens + u.completionTokens ≤
        discountedPrompt (prefixTokens systemPrefix) (clientEst messages) (reported chunks) +
          largestCompletion (reported chunks) := by
    intro n u hu
    rw [← hsplit n]
    exact sum_syncUsages_le hu
  unfold DiscountedOnce Repeated
  simp only [usage_syncChunks]
  rcases List.eq_nil_or_concat (reported chunks) with hnil | ⟨us, last, hconcat⟩
  · have htake : ∀ n, reported (chunks.take n) = [] := fun n =>
      (List.append_eq_nil_iff.mp ((hsplit n).trans hnil)).1
    rw [hnil]
    simp [htake, syncUsages]
  · have hfinal := @syncUsages_append systemPrefix messages us last
    have hiff := @prompt_discounted_iff systemPrefix messages us last
    have hcompletion := @completionTokens_syncUsages systemPrefix messages (us ++ [last])
    have htotal := (syncUsage_counts systemPrefix messages (syncUsages systemPrefix messages us) last).2.2
    rw [List.concat_eq_append] at hconcat
    rw [hfinal] at hiff hcompletion
    generalize syncUsage (some systemPrefix) messages (syncUsages systemPrefix messages us) last = final at *
    change final.promptTokens = _ ↔ _ at hiff
    change final.completionTokens = _ at hcompletion
    have hlast : (us ++ [last]).getLast? = some last := List.getLast?_concat
    rw [hconcat] at hbound ⊢
    rw [hfinal, hlast]
    constructor
    · rintro ⟨hcounts, hfits⟩
      obtain ⟨hprompt, -⟩ := hcounts final rfl
      have hsum := hfits chunks.length final (by rw [List.take_length, hconcat, hfinal]; rfl)
      refine ⟨?_, fun _ => by omega⟩
      rcases hiff.mp hprompt with hzero | hrepeats
      · exact .inl hzero
      · exact .inr fun _ h => Option.some.inj h ▸ hrepeats
    · rintro ⟨hrepeats, hfits⟩
      have hfits := hfits (List.append_ne_nil_of_right_ne_nil _ (List.cons_ne_nil _ _))
      have hprompt : final.promptTokens = _ := hiff.mpr (hrepeats.imp_right fun h => h last rfl)
      refine ⟨fun u hu => ?_, fun n u hu => ?_⟩
      · rw [← Option.some.inj hu]
        refine ⟨hprompt, ?_⟩
        rw [htotal]
        exact Nat.mod_eq_of_lt (by omega)
      · have := hbound n u hu
        omega

/-- A stream whose first chunk has the prompt count and whose last one has the completion count. -/
def usageChunks : List ChunkMetadata :=
  [⟨some ⟨1000, 0, 1000, none⟩, none, false⟩, ⟨some ⟨0, 50, 0, none⟩, some "stop".toList, true⟩]

def systemPrefixSample : Text := "You are a helpful coding assistant.".toList

/-- The prefix of 13 tokens is taken off twice. -/
theorem discountedOnce_twice :
    (syncChunks systemPrefixSample [] none usageChunks).usage = some ⟨974, 50, 1024, none⟩ ∧
      discountedPrompt (prefixTokens systemPrefixSample) (clientEst []) (reported usageChunks) = 987 ∧
      ¬ DiscountedOnce systemPrefixSample [] none usageChunks := by
  have hfinal : (syncChunks systemPrefixSample [] none usageChunks).usage = some ⟨974, 50, 1024, none⟩ := by decide
  have hprompt : discountedPrompt (prefixTokens systemPrefixSample) (clientEst []) (reported usageChunks) = 987 := by
    decide
  refine ⟨hfinal, hprompt, ?_⟩
  rintro ⟨hcounts, -⟩
  obtain ⟨hfalse, -⟩ := hcounts _ hfinal
  rw [hprompt] at hfalse
  exact absurd hfalse (by decide)

end

end OpenProxy.Streaming
