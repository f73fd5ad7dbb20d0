import OpenProxy.Anthropic.Content
import OpenProxy.Combos.Targets
import OpenProxy.Limits.Limiter
import OpenProxy.Quota.Pools

/-!
# The decision router

The model of `stages/decision.rs`.  A decision model is asked which target suits the prompt, and the target that its answer
favours is put in front.  The prompt is made of the latest messages, but of their text the beginning is kept, as many bytes
as there may be characters (`showsRecent_iff`).  Which targets are offered is checked before the question.  The target that
is put in front comes from the full list, and is the first entry with the favoured id, or any healthy-looking one in place
of a degraded choice; so it may be one that was not to be offered (`routesSafely_iff`).
-/

namespace OpenProxy.Combos

open Routing

/-! ### The prompt -/

/-- `MAX_PROMPT_CHARS`. -/
def maxPromptChars : Nat := 2000

/-- The loop over the messages, the latest one first. -/
def promptLoop (maxChars : Nat) (state : Text) : List OpenAIMessage → Text
  | [] => state
  | msg :: msgs =>
    let trimmed := trim msg.extractText
    if trimmed.isEmpty then promptLoop maxChars state msgs
    else
      let state := if state.isEmpty then trimmed else trimmed ++ '\n' :: state
      if maxChars ≤ state.length then state else promptLoop maxChars state msgs

/-- The longest beginning with at most `n` bytes: `truncate` at the last boundary of a character that is not behind `n`. -/
def truncateBytes (n : Nat) : Text → Text
  | [] => []
  | c :: s => if c.utf8Size ≤ n then c :: truncateBytes (n - c.utf8Size) s else []

def extractPromptState (messages : List OpenAIMessage) (maxChars : Nat) : Text :=
  let state := promptLoop maxChars [] messages.reverse
  if maxChars < utf8Len state then truncateBytes maxChars state else state

/-- The texts of a conversation, in its order. -/
def promptTexts (messages : List OpenAIMessage) : List Text :=
  (messages.map fun m => trim m.extractText).filter fun t => !t.isEmpty

def joinLines (texts : List Text) : Text := ['\n'].intercalate texts

/-- The decision model sees the most recent part of the conversation. -/
def ShowsRecent (messages : List OpenAIMessage) (n : Nat) : Prop :=
  let shown := extractPromptState messages n
  let whole := joinLines (promptTexts messages)
  shown <:+ whole ∧ shown.length ≤ n ∧ (whole.length ≤ n → shown = whole)

/-- The last texts joined, the shortest ending first. -/
def endings (texts : List Text) : List Text := ((texts.tails.filter fun ts => !ts.isEmpty).map joinLines).reverse

/-- The shortest ending with `n` characters, if there is one. -/
def shortestEnding (n : Nat) (texts : List Text) : Option Text := (endings texts).find? fun s => n ≤ s.length

/-- The first `k` characters of the text have at most `n` bytes together, and the next one has not. -/
def FitsFirst (n k : Nat) (s : Text) : Prop :=
  k ≤ s.length ∧ utf8Len (s.take k) ≤ n ∧ (k < s.length → n < utf8Len (s.take (k + 1)))

section

variable {n : Nat} {state : Text} {texts : List Text}

theorem truncateBytes_eq_take {k : Nat} {s : Text} (h : FitsFirst n k s) : truncateBytes n s = s.take k := by
  induction s generalizing n k with
  | nil => rw [List.take_nil]; rfl
  | cons c s ih =>
    obtain ⟨hle, hfits, hnext⟩ := h
    rw [truncateBytes]
    cases k with
    | zero =>
      have hone := hnext (Nat.zero_lt_succ _)
      rw [List.take_succ_cons, List.take_zero, utf8Len_cons, utf8Len_nil] at hone
      rw [if_neg (by omega), List.take_zero]
    | succ k =>
      rw [List.take_succ_cons, utf8Len_cons] at hfits
      rw [if_pos (by omega), List.take_succ_cons]
      refine congrArg _ (ih ⟨Nat.le_of_succ_le_succ hle, by omega, fun hlt => ?_⟩)
      have hmore := hnext (Nat.succ_lt_succ hlt)
      rw [List.take_succ_cons, utf8Len_cons] at hmore
      omega

theorem exists_fitsFirst (n : Nat) (s : Text) : ∃ k, FitsFirst n k s := by
  induction s generalizing n with
  | nil => exact ⟨0, le_rfl, Nat.zero_le n, fun h => absurd h (Nat.lt_irrefl 0)⟩
  | cons c s ih =>
    by_cases hc : c.utf8Size ≤ n
    · obtain ⟨k, hle, hfits, hnext⟩ := ih (n - c.utf8Size)
      refine ⟨k + 1, Nat.succ_le_succ hle, ?_, fun hlt => ?_⟩
      · rw [List.take_succ_cons, utf8Len_cons]
        omega
      · have hmore := hnext (Nat.lt_of_succ_lt_succ hlt)
        rw [List.take_succ_cons, utf8Len_cons]
        omega
    · refine ⟨0, Nat.zero_le _, Nat.zero_le n, fun _ => ?_⟩
      rw [List.take_succ_cons, List.take_zero, utf8Len_cons, utf8Len_nil]
      omega

theorem utf8Len_truncateBytes (n : Nat) (s : Text) : utf8Len (truncateBytes n s) ≤ n := by
  obtain ⟨k, hk⟩ := exists_fitsFirst n s
  rw [truncateBytes_eq_take hk]
  exact hk.2.1

/-- A text that fits is kept whole. -/
theorem truncateBytes_of_le {s : Text} (h : utf8Len s ≤ n) : truncateBytes n s = s := by
  induction s generalizing n with
  | nil => rfl
  | cons c s ih =>
    rw [utf8Len_cons] at h
    rw [truncateBytes, if_pos (by omega), ih (by omega)]

/-! ### What the loop stops at -/

theorem joinLines_cons (t : Text) (ts : List Text) :
    joinLines (t :: ts) = if ts.isEmpty then t else t ++ '\n' :: joinLines ts := by
  unfold joinLines
  cases ts with
  | nil => simp
  | cons u ts => rw [List.intercalate_cons_cons, List.append_assoc, if_neg (by simp)]; rfl

theorem joinLines_isEmpty (h : ∀ t ∈ texts, t ≠ []) : (joinLines texts).isEmpty = texts.isEmpty := by
  cases texts with
  | nil => rfl
  | cons t ts =>
    have ht := h t List.mem_cons_self
    rw [joinLines_cons]
    split <;> simp [ht]

theorem endings_cons (t : Text) (ts : List Text) : endings (t :: ts) = endings ts ++ [joinLines (t :: ts)] := by
  unfold endings
  rw [List.tails_cons, List.filter_cons_of_pos (by rfl), List.map_cons, List.reverse_cons]

theorem endings_append (before after : List Text) : endings after <+: endings (before ++ after) := by
  induction before with
  | nil => exact List.prefix_refl _
  | cons t before ih =>
    rw [List.cons_append, endings_cons]
    exact ih.trans (List.prefix_append _ _)

theorem suffix_of_mem_endings {s : Text} (h : s ∈ endings texts) : s <:+ joinLines texts := by
  induction texts with
  | nil => cases h
  | cons t ts ih =>
    rw [endings_cons, List.mem_append, List.mem_singleton] at h
    rcases h with h | rfl
    · have hrest := ih h
      rw [joinLines_cons]
      split
      · rename_i hts
        rw [List.isEmpty_iff.mp hts] at h
        cases h
      · exact hrest.trans ((List.suffix_cons _ _).trans (List.suffix_append _ _))
    · exact List.suffix_refl _

/-- The loop on texts that are not empty. -/
def textLoop (n : Nat) (state : Text) : List Text → Text
  | [] => state
  | t :: ts =>
    let state := if state.isEmpty then t else t ++ '\n' :: state
    if n ≤ state.length then state else textLoop n state ts

theorem promptLoop_eq (n : Nat) (state : Text) (msgs : List OpenAIMessage) :
    promptLoop n state msgs = textLoop n state (promptTexts msgs) := by
  induction msgs generalizing state with
  | nil => rfl
  | cons msg msgs ih =>
    unfold promptTexts at ih ⊢
    rw [promptLoop, List.map_cons]
    by_cases hempty : (trim msg.extractText).isEmpty = true
    · rw [if_pos hempty, List.filter_cons_of_neg (by simp [hempty]), ih]
    · rw [if_neg hempty, List.filter_cons_of_pos (by simp [hempty]), textLoop]
      dsimp only
      rw [ih]

/-- Where no ending of the texts behind has `n` characters, the loop stops at the shortest ending that has. -/
theorem textLoop_eq {before after : List Text} (hne : ∀ t ∈ before ++ after, t ≠ [])
    (hnone : shortestEnding n after = none) : textLoop n (joinLines after) before.reverse =
      (shortestEnding n (before ++ after)).getD (joinLines (before ++ after)) := by
  induction before using List.reverseRecOn generalizing after with
  | nil =>
    rw [List.nil_append, hnone]
    rfl
  | append_singleton before t ih =>
    rw [List.append_assoc, List.singleton_append] at hne ⊢
    have hafter : ∀ u ∈ after, u ≠ [] := fun u hu => hne u (List.mem_append_right _ (List.mem_cons_of_mem _ hu))
    have hstate : (if (joinLines after).isEmpty then t else t ++ '\n' :: joinLines after) = joinLines (t :: after) := by
      rw [joinLines_isEmpty hafter, joinLines_cons]
    have hfind : shortestEnding n (t :: after) =
        if n ≤ (joinLines (t :: after)).length then some (joinLines (t :: after)) else none := by
      unfold shortestEnding at hnone ⊢
      rw [endings_cons, List.find?_append, hnone, Option.none_or, List.find?_singleton]
      simp only [decide_eq_true_eq]
    rw [List.reverse_append, List.reverse_singleton, List.singleton_append, textLoop, hstate]
    split
    · rename_i hlong
      rw [if_pos hlong] at hfind
      obtain ⟨longer, hlonger⟩ := endings_append before (t :: after)
      unfold shortestEnding at hfind ⊢
      rw [← hlonger, List.find?_append, hfind]
      rfl
    · rename_i hshort
      rw [if_neg hshort] at hfind
      exact ih hne hfind

theorem promptLoop_reverse (messages : List OpenAIMessage) (n : Nat) : promptLoop n [] messages.reverse =
    (shortestEnding n (promptTexts messages)).getD (joinLines (promptTexts messages)) := by
  have hne : ∀ t ∈ promptTexts messages ++ [], t ≠ [] := by
    intro t ht
    rw [List.append_nil] at ht
    have hfilter := (List.mem_filter.mp ht).2
    simpa using hfilter
  have hreverse : promptTexts messages.reverse = (promptTexts messages).reverse := by
    unfold promptTexts
    rw [List.map_reverse, List.filter_reverse]
  rw [promptLoop_eq, hreverse]
  have hloop := textLoop_eq hne (show shortestEnding n [] = none from rfl)
  rwa [List.append_nil] at hloop

theorem extractPromptState_eq (messages : List OpenAIMessage) (n : Nat) : extractPromptState messages n =
    truncateBytes n ((shortestEnding n (promptTexts messages)).getD (joinLines (promptTexts messages))) := by
  rw [← promptLoop_reverse]
  unfold extractPromptState
  dsimp only
  split
  · rfl
  · rename_i hfits
    exact (truncateBytes_of_le (Nat.le_of_not_lt hfits)).symm

/-- The end of the conversation is shown if and only if all of it fits in bytes as well, or the ending that is taken repeats
itself so that what is cut off does not show. -/
theorem showsRecent_iff (messages : List OpenAIMessage) (n : Nat) : ShowsRecent messages n ↔
    ((joinLines (promptTexts messages)).length ≤ n ∧ utf8Len (joinLines (promptTexts messages)) ≤ n) ∨
      (n < (joinLines (promptTexts messages)).length ∧
        ∃ s k, shortestEnding n (promptTexts messages) = some s ∧ FitsFirst n k s ∧ s.take k <:+ s) := by
  have hbytes := utf8Len_truncateBytes n
  unfold ShowsRecent
  dsimp only
  rw [extractPromptState_eq]
  generalize promptTexts messages = texts at *
  by_cases hwhole : (joinLines texts).length ≤ n
  · have hstate : (shortestEnding n texts).getD (joinLines texts) = joinLines texts := by
      cases hcase : shortestEnding n texts with
      | none => rfl
      | some s =>
        have hsuffix := suffix_of_mem_endings (List.mem_of_find?_eq_some hcase)
        have hlong := List.find?_some hcase
        rw [decide_eq_true_eq] at hlong
        exact hsuffix.eq_of_length_le (by omega)
    rw [hstate, or_iff_left (by omega), and_iff_right hwhole]
    constructor
    · rintro ⟨-, -, hall⟩
      rw [← hall hwhole]
      exact hbytes _
    · intro hfits
      rw [truncateBytes_of_le hfits]
      exact ⟨List.suffix_refl _, hwhole, fun _ => rfl⟩
  · rw [or_iff_right (by omega), and_iff_right (Nat.lt_of_not_le hwhole)]
    have hmem : joinLines texts ∈ endings texts := by
      cases texts with
      | nil => exact absurd (Nat.zero_le n) hwhole
      | cons t ts =>
        rw [endings_cons]
        exact List.mem_append_right _ List.mem_cons_self
    cases hcase : shortestEnding n texts with
    | none =>
      have habsurd := List.find?_eq_none.mp hcase _ hmem
      simp only [decide_eq_true_eq] at habsurd
      omega
    | some s =>
      have hsuffix := suffix_of_mem_endings (List.mem_of_find?_eq_some hcase)
      obtain ⟨k, hk⟩ := exists_fitsFirst n s
      rw [Option.getD_some, truncateBytes_eq_take hk]
      have hlength : (s.take k).length ≤ n := (length_le_utf8Len _).trans hk.2.1
      constructor
      · rintro ⟨hshown, -, -⟩
        exact ⟨s, k, rfl, hk, List.suffix_of_suffix_length_le hshown hsuffix (List.length_take_le' k s)⟩
      · rintro ⟨s', k', hs', hk', hborder⟩
        obtain rfl := Option.some_inj.mp hs'
        rw [← truncateBytes_eq_take hk', truncateBytes_eq_take hk] at hborder
        exact ⟨hborder.trans hsuffix, hlength, fun h => absurd h hwhole⟩

end

def userMessage (text : Text) : OpenAIMessage where
  role := Role.user
  content := some (.string text)
  name := none
  toolCallId := none
  toolCalls := none
  extra := []

/-- Of two characters the first one is shown. -/
theorem not_showsRecent_ab : extractPromptState [userMessage "ab".toList] 1 = "a".toList ∧
    ¬ ShowsRecent [userMessage "ab".toList] 1 := by
  have hshown : extractPromptState [userMessage "ab".toList] 1 = "a".toList := by decide +kernel
  have hwhole : joinLines (promptTexts [userMessage "ab".toList]) = "ab".toList := by decide +kernel
  refine ⟨hshown, fun h => ?_⟩
  unfold ShowsRecent at h
  dsimp only at h
  rw [hshown, hwhole] at h
  revert h
  decide

/-! ### Targets -/

/-- `ResolvedTarget`, of the model what the router reads. -/
structure ResolvedTarget where
  target : ComboTarget
  modelActive : Bool
  contextLength : Option Int

def ResolvedTarget.idText (rt : ResolvedTarget) : Text := intText rt.target.id

/-- The fields of a combo that the router reads. -/
structure DecisionCombo where
  cooldownMode : CooldownMode
  cooldownBaseSecs : Option Nat
  preventiveRateLimit : Bool

def DecisionCombo.isCooldownDisabled (combo : DecisionCombo) : Bool :=
  combo.cooldownMode = .none || combo.cooldownBaseSecs = some 0

def isCooldownForcedDisabled (t : ComboTarget) : Bool := t.cooldownMode = some .none || t.cooldownBaseSecs = some 0

def isCooldownDisabled (t : ComboTarget) (combo : DecisionCombo) : Bool :=
  isCooldownForcedDisabled t || (t.cooldownMode.isNone && combo.isCooldownDisabled)

/-- What `compute_key_parts` hashes. -/
inductive KeyParts
  | account (id : Int)
  | accountModel (id model : Int)
  | providerModel (provider : Text) (model : Int)

def keyParts (t : ComboTarget) : KeyParts :=
  match t.accountId with
  | some id => if t.rateLimitScope = .model then .accountModel id (t.modelRowId.getD 0) else .account id
  | none => .providerModel t.providerId (t.modelRowId.getD 0)

/-- `SystemOneAnswer`; the map of the probabilities as a function. -/
structure SystemOneAnswer where
  choice : Option Text
  probabilities : Option (Text → Option ℚ)
  confidence : Option ℚ

/-- What the router reads beside the targets, the prompt and the answer. -/
structure DecisionEnv where
  combo : DecisionCombo
  cooldowns : List Int
  limiter : Limits.PredictiveRateLimiter
  hash : KeyParts → Nat
  nowMs : Nat
  reputation : Int → ℚ

section

variable (env : DecisionEnv)

def activeCooldowns : List Int := if env.combo.isCooldownDisabled then [] else env.cooldowns

def isSaturated (t : ComboTarget) : Bool :=
  match env.limiter.evaluateKey (env.hash (keyParts t)) env.nowMs with
  | .saturated _ _ _ => true
  | _ => false

def inCooldown (t : ComboTarget) : Bool :=
  !isCooldownDisabled t env.combo && (activeCooldowns env).contains t.id

/-- `has_any_predictive_healthy`. -/
def hasAnyPredictiveHealthy (rts : List ResolvedTarget) : Bool :=
  env.combo.preventiveRateLimit && rts.any fun rt =>
    rt.target.active && rt.modelActive && !inCooldown env rt.target &&
      (isCooldownDisabled rt.target env.combo || !isSaturated env rt.target)

/-- The checks of `filter_decision_candidates`. -/
def isCandidate (rts : List ResolvedTarget) (rt : ResolvedTarget) : Bool :=
  rt.target.active && rt.modelActive && !inCooldown env rt.target &&
    !(env.combo.preventiveRateLimit && !isCooldownDisabled rt.target env.combo && hasAnyPredictiveHealthy env rts &&
      isSaturated env rt.target)

/-- The candidates with a description that none before them has. -/
def collectCandidates (rts : List ResolvedTarget) (seen : List Text) : List ResolvedTarget → List (Text × Text)
  | [] => []
  | rt :: rest =>
    match isCandidate env rts rt, rt.target.description.map trim with
    | true, some desc =>
      if !desc.isEmpty && !seen.contains desc then (rt.idText, desc) :: collectCandidates rts (desc :: seen) rest
      else collectCandidates rts seen rest
    | _, _ => collectCandidates rts seen rest

def filterDecisionCandidates (rts : List ResolvedTarget) : List (Text × Text) := collectCandidates env rts [] rts

/-! ### Moving a target to the front -/

def minPriority (rts : List ResolvedTarget) : Int := (rts.map fun rt => rt.target.priorityOrder).min?.getD 1

/-- `min_prio.saturating_sub(1)` of an `i32`. -/
def raise (minPrio : Int) (rt : ResolvedTarget) : ResolvedTarget :=
  { rt with target := { rt.target with priorityOrder := max (minPrio - 1) (-2 ^ 31) } }

def moveFront (minPrio : Int) (pos : Nat) (rts : List ResolvedTarget) : List ResolvedTarget :=
  match rts[pos]? with
  | some winner => raise minPrio winner :: rts.eraseIdx pos
  | none => rts

/-- The pinned target, if it is there and healthy. -/
def availablePinned (rts : List ResolvedTarget) (pinned : Option Int) : Option Int :=
  pinned.filter fun pid => rts.any fun rt =>
    rt.target.id = pid && rt.target.active && rt.modelActive &&
      (isCooldownDisabled rt.target env.combo || !(activeCooldowns env).contains pid)

def prePromote (rts : List ResolvedTarget) (pinned : Option Int) : List ResolvedTarget :=
  match pinned.bind fun pid => rts.findIdx? fun rt => rt.target.id = pid with
  | some pos => moveFront (minPriority rts) pos rts
  | none => rts

/-! ### The answer -/

/-- `p_sem * rep`. -/
def scoreOf (probs : Text → Option ℚ) (rt : ResolvedTarget) : Option ℚ :=
  (probs rt.idText).map fun p => p * env.reputation rt.target.id

/-- A step of the loop over the scores. -/
def better {α β : Type} (score : α → Option ℚ) (key : α → β) (best : β × ℚ) (a : α) : β × ℚ :=
  match score a with
  | some s => if best.2 < s then (key a, s) else best
  | none => best

/-- Another target that looks healthy. -/
def isAlternative (chosen : Int) (rt : ResolvedTarget) : Bool :=
  rt.target.id ≠ chosen && 7 / 10 ≤ env.reputation rt.target.id

/-- `effective_choice_str`. -/
def effectiveChoice (rts : List ResolvedTarget) (answer : SystemOneAnswer) (choice : Text) : Text :=
  match answer.probabilities with
  | some probs => (rts.foldl (better (scoreOf env probs) ResolvedTarget.idText) (choice, -1)).1
  | none =>
    let chosen := (Quota.parseI64 choice).getD 0
    if env.reputation chosen < 2 / 5 then ((rts.find? (isAlternative env chosen)).map ResolvedTarget.idText).getD choice
    else choice

/-- The damping of a switch away from the pinned target. -/
def shouldSwitch (answer : SystemOneAnswer) (pinned : Option Int) (id : Text) : Bool :=
  match pinned, answer.probabilities, answer.confidence with
  | none, _, _ => true
  | some pid, some probs, _ => !decide ((probs id).getD 0 - (probs (intText pid)).getD 0 < 1 / 20)
  | some _, none, some confidence => !decide (confidence < 1 / 20)
  | some _, none, none => true

/-- The estimated prompt fits into 85 percent of the context; the product is an `i64`. -/
def fitsContext (messages : List OpenAIMessage) (rt : ResolvedTarget) : Bool :=
  rt.contextLength.all fun len =>
    !decide ((((messages.map fun m => utf8Len m.extractText).sum / 3 : Nat) : Int) > ((len * 85).bmod (2 ^ 64)).tdiv 100)

/-- The answer makes the router move this entry. -/
def switchesTo (messages : List OpenAIMessage) (answer : SystemOneAnswer) (pinned : Option Int) (rt : ResolvedTarget) : Bool :=
  pinned ≠ some rt.target.id && shouldSwitch answer pinned rt.idText && fitsContext messages rt

/-- The place of the entry that is moved because of the answer. -/
def switchPosition (messages : List OpenAIMessage) (rts : List ResolvedTarget) (pinned : Option Int)
    (answer : SystemOneAnswer) : Option Nat := do
  let choice ← answer.choice
  let id := effectiveChoice env rts answer choice
  let pos ← rts.findIdx? fun rt => rt.idText = id
  let rt ← rts[pos]?
  if switchesTo messages answer pinned rt then some pos else none

/-- A question is asked. -/
def asks (messages : List OpenAIMessage) (rts : List ResolvedTarget) : Bool :=
  2 ≤ rts.length && 2 ≤ (filterDecisionCandidates env rts).length &&
    !(extractPromptState messages maxPromptChars).isEmpty

/-- The list when the answer comes, and the place of the entry that the answer moves. -/
def decision (messages : List OpenAIMessage) (rts : List ResolvedTarget) (pinned : Option Int)
    (answer : Option SystemOneAnswer) : List ResolvedTarget × Option Nat :=
  if rts.length < 2 then (rts, none)
  else
    let pinned := availablePinned env rts pinned
    let rts := prePromote rts pinned
    (rts, if asks env messages rts then answer.bind (switchPosition env messages rts pinned) else none)

/-- `apply_decision_routing`; there is no answer where the decision model fails or gives none. -/
def applyDecisionRouting (messages : List OpenAIMessage) (rts : List ResolvedTarget) (pinned : Option Int)
    (answer : Option SystemOneAnswer) : List ResolvedTarget :=
  match decision env messages rts pinned answer with
  | (rts, some pos) => moveFront (minPriority (rts.eraseIdx pos)) pos rts
  | (rts, none) => rts

/-! ### What is promised -/

/-- The entry passes every check of the filter. -/
def Eligible (rts : List ResolvedTarget) (rt : ResolvedTarget) : Prop := isCandidate env rts rt = true

/-- The entry without its priority. -/
def unprioritised (rt : ResolvedTarget) : ResolvedTarget :=
  { rt with target := { rt.target with priorityOrder := 0 } }

/-- The entries are reordered: at most two of them are put in front, and the others keep their order. -/
def Reordered (rts result : List ResolvedTarget) : Prop :=
  (result.map unprioritised).Perm (rts.map unprioritised) ∧
    ∃ moved rest, moved.length ≤ 2 ∧ result = moved ++ rest ∧ rest.Sublist rts

/-- The router only reorders, and what it moves because of the answer was to be offered. -/
def RoutesSafely (messages : List OpenAIMessage) (rts : List ResolvedTarget) (pinned : Option Int)
    (answer : Option SystemOneAnswer) : Prop :=
  Reordered rts (applyDecisionRouting env messages rts pinned answer) ∧
    ∀ asked pos rt, decision env messages rts pinned answer = (asked, some pos) → asked[pos]? = some rt →
      Eligible env asked rt

/-- The id that an answer with a choice favours. -/
inductive Favoured (rts : List ResolvedTarget) (answer : SystemOneAnswer) (choice : Text) : Text → Prop
  | scored {probs : Text → Option ℚ} {before after : List ResolvedTarget} {rt : ResolvedTarget} {s : ℚ}
      (hprobs : answer.probabilities = some probs) (hsplit : rts = before ++ rt :: after)
      (hscore : scoreOf env probs rt = some s) (hpos : -1 < s)
      (hbefore : ∀ x ∈ before, ∀ q, scoreOf env probs x = some q → q < s)
      (hafter : ∀ x ∈ after, ∀ q, scoreOf env probs x = some q → q ≤ s) : Favoured rts answer choice rt.idText
  | unscored {probs : Text → Option ℚ} (hprobs : answer.probabilities = some probs)
      (hlow : ∀ x ∈ rts, ∀ q, scoreOf env probs x = some q → q ≤ -1) : Favoured rts answer choice choice
  | kept (hprobs : answer.probabilities = none)
      (hkept : 2 / 5 ≤ env.reputation ((Quota.parseI64 choice).getD 0) ∨
        ∀ x ∈ rts, isAlternative env ((Quota.parseI64 choice).getD 0) x = false) : Favoured rts answer choice choice
  | failover {before after : List ResolvedTarget} {rt : ResolvedTarget} (hprobs : answer.probabilities = none)
      (hdegraded : env.reputation ((Quota.parseI64 choice).getD 0) < 2 / 5) (hsplit : rts = before ++ rt :: after)
      (hrt : isAlternative env ((Quota.parseI64 choice).getD 0) rt = true)
      (hbefore : ∀ x ∈ before, isAlternative env ((Quota.parseI64 choice).getD 0) x = false) :
      Favoured rts answer choice rt.idText

/-- If the first entry with the favoured id is one to switch to, it passes the checks of the filter. -/
def FavoursEligible (messages : List OpenAIMessage) (rts : List ResolvedTarget) (pinned : Option Int)
    (answer : SystemOneAnswer) : Prop :=
  ∀ choice id before rt after, answer.choice = some choice → Favoured env rts answer choice id →
    rts = before ++ rt :: after → rt.idText = id → (∀ x ∈ before, x.idText ≠ id) →
    switchesTo messages answer pinned rt = true → Eligible env rts rt

end

/-! ### The order of the entries -/

section

variable {env : DecisionEnv} {messages : List OpenAIMessage} {rts asked : List ResolvedTarget} {rt : ResolvedTarget}
  {pinned : Option Int} {answer : SystemOneAnswer} {choice id : Text} {pos : Nat}

@[simp] theorem unprioritised_raise (minPrio : Int) (rt : ResolvedTarget) :
    unprioritised (raise minPrio rt) = unprioritised rt := rfl

theorem moveFront_perm (minPrio : Int) (pos : Nat) (rts : List ResolvedTarget) :
    ((moveFront minPrio pos rts).map unprioritised).Perm (rts.map unprioritised) := by
  unfold moveFront
  cases hwinner : rts[pos]? with
  | none => exact List.Perm.refl _
  | some winner =>
    obtain ⟨hpos, rfl⟩ := List.getElem?_eq_some_iff.mp hwinner
    rw [List.map_cons, unprioritised_raise, ← List.map_cons]
    exact (List.getElem_cons_eraseIdx_perm hpos).map unprioritised

/-- Either nothing is moved, or one entry is put in front of the others. -/
theorem moveFront_cases (minPrio : Int) (pos : Nat) (rts : List ResolvedTarget) :
    moveFront minPrio pos rts = rts ∨ ∃ winner, moveFront minPrio pos rts = winner :: rts.eraseIdx pos := by
  unfold moveFront
  cases rts[pos]? with
  | none => exact Or.inl rfl
  | some winner => exact Or.inr ⟨_, rfl⟩

theorem prePromote_cases (rts : List ResolvedTarget) (pinned : Option Int) :
    ((prePromote rts pinned).map unprioritised).Perm (rts.map unprioritised) ∧
      (prePromote rts pinned = rts ∨ ∃ winner pos, prePromote rts pinned = winner :: rts.eraseIdx pos) := by
  unfold prePromote
  cases pinned.bind fun pid => rts.findIdx? fun rt => rt.target.id = pid with
  | none => exact ⟨List.Perm.refl _, Or.inl rfl⟩
  | some pos =>
    refine ⟨moveFront_perm _ _ _, (moveFront_cases _ pos rts).imp_right ?_⟩
    rintro ⟨winner, h⟩
    exact ⟨winner, pos, h⟩

theorem Reordered.refl (rts : List ResolvedTarget) : Reordered rts rts :=
  ⟨List.Perm.refl _, [], rts, Nat.zero_le _, rfl, List.Sublist.refl _⟩

theorem reordered_prePromote (rts : List ResolvedTarget) (pinned : Option Int) :
    Reordered rts (prePromote rts pinned) := by
  obtain ⟨hperm, heq | ⟨winner, pos, heq⟩⟩ := prePromote_cases rts pinned
  · rw [heq]
    exact Reordered.refl rts
  · exact ⟨hperm, [winner], rts.eraseIdx pos, Nat.le_succ 1, heq, List.eraseIdx_sublist rts pos⟩

/-- A second entry is put in front of one that was moved before, or of the list as it was. -/
theorem reordered_moveFront (minPrio : Int) (pos : Nat) (rts : List ResolvedTarget) (pinned : Option Int) :
    Reordered rts (moveFront minPrio pos (prePromote rts pinned)) := by
  obtain ⟨hperm, hpinned⟩ := prePromote_cases rts pinned
  refine ⟨(moveFront_perm minPrio pos _).trans hperm, ?_⟩
  rcases moveFront_cases minPrio pos (prePromote rts pinned) with hsame | ⟨winner, hmoved⟩
  · rw [hsame]
    exact (reordered_prePromote rts pinned).2
  · rw [hmoved]
    rcases hpinned with heq | ⟨first, pos', heq⟩
    · rw [heq]
      exact ⟨[winner], rts.eraseIdx pos, Nat.le_succ 1, rfl, List.eraseIdx_sublist rts pos⟩
    · rw [heq]
      cases pos with
      | zero => exact ⟨[winner], rts.eraseIdx pos', Nat.le_succ 1, rfl, List.eraseIdx_sublist rts pos'⟩
      | succ pos =>
        exact ⟨[winner, first], (rts.eraseIdx pos').eraseIdx pos, le_rfl, rfl,
          (List.eraseIdx_sublist _ pos).trans (List.eraseIdx_sublist rts pos')⟩

theorem reordered_applyDecisionRouting (env : DecisionEnv) (messages : List OpenAIMessage) (rts : List ResolvedTarget)
    (pinned : Option Int) (answer : Option SystemOneAnswer) :
    Reordered rts (applyDecisionRouting env messages rts pinned answer) := by
  unfold applyDecisionRouting decision
  by_cases hshort : rts.length < 2
  · rw [if_pos hshort]
    exact Reordered.refl rts
  · rw [if_neg hshort]
    dsimp only
    split
    · rename_i asked pos heq
      rw [← (Prod.mk.inj heq).1]
      exact reordered_moveFront _ _ _ _
    · rename_i asked heq
      rw [← (Prod.mk.inj heq).1]
      exact reordered_prePromote _ _

/-! ### The favoured id -/

section Better

variable {α β : Type} {score : α → Option ℚ} {key : α → β} {l before after : List α} {a : α} {best : β × ℚ} {s : ℚ}

/-- Scores that are not higher change nothing. -/
theorem foldl_better_of_le (h : ∀ x ∈ l, ∀ q, score x = some q → q ≤ best.2) : l.foldl (better score key) best = best := by
  induction l with
  | nil => rfl
  | cons x l ih =>
    have hstep : better score key best x = best := by
      unfold better
      cases hx : score x with
      | none => rfl
      | some q => exact if_neg (not_lt.mpr (h x List.mem_cons_self q hx))
    rw [List.foldl_cons, hstep]
    exact ih fun y hy => h y (List.mem_cons_of_mem _ hy)

/-- Below a bound of all scores the best one stays below it. -/
theorem foldl_better_lt (hbest : best.2 < s) (h : ∀ x ∈ l, ∀ q, score x = some q → q < s) :
    (l.foldl (better score key) best).2 < s := by
  induction l generalizing best with
  | nil => exact hbest
  | cons x l ih =>
    rw [List.foldl_cons]
    refine ih ?_ fun y hy => h y (List.mem_cons_of_mem _ hy)
    unfold better
    cases hx : score x with
    | none => exact hbest
    | some q =>
      dsimp only
      split
      · exact h x List.mem_cons_self q hx
      · exact hbest

/-- The first of the highest scores wins. -/
theorem foldl_better_eq (hscore : score a = some s) (hbest : best.2 < s)
    (hbefore : ∀ x ∈ before, ∀ q, score x = some q → q < s) (hafter : ∀ x ∈ after, ∀ q, score x = some q → q ≤ s) :
    (before ++ a :: after).foldl (better score key) best = (key a, s) := by
  have hstep : better score key (before.foldl (better score key) best) a = (key a, s) := by
    unfold better
    rw [hscore]
    exact if_pos (foldl_better_lt hbest hbefore)
  rw [List.foldl_append, List.foldl_cons, hstep]
  exact foldl_better_of_le hafter

/-- There is a first highest score, unless none is higher. -/
theorem exists_first_best (score : α → Option ℚ) (l : List α) (bound : ℚ) :
    (∀ x ∈ l, ∀ q, score x = some q → q ≤ bound) ∨
      ∃ before a after s, l = before ++ a :: after ∧ score a = some s ∧ bound < s ∧
        (∀ x ∈ before, ∀ q, score x = some q → q < s) ∧ ∀ x ∈ after, ∀ q, score x = some q → q ≤ s := by
  induction l generalizing bound with
  | nil => exact Or.inl fun x hx => absurd hx List.not_mem_nil
  | cons a l ih =>
    by_cases hhigh : ∃ s, score a = some s ∧ bound < s
    · obtain ⟨s, hs, hlt⟩ := hhigh
      right
      rcases ih s with hle | ⟨before, b, after, q, rfl, hq, hsq, hbefore, hafter⟩
      · exact ⟨[], a, l, s, rfl, hs, hlt, fun x hx => absurd hx List.not_mem_nil, hle⟩
      · refine ⟨a :: before, b, after, q, rfl, hq, hlt.trans hsq, ?_, hafter⟩
        intro x hx r hr
        rcases List.mem_cons.mp hx with rfl | hx
        · rw [hs] at hr
          rwa [← Option.some_inj.mp hr]
        · exact hbefore x hx r hr
    · have ha : ∀ q, score a = some q → q ≤ bound := fun q hq => not_lt.mp fun hlt => hhigh ⟨q, hq, hlt⟩
      rcases ih bound with hle | ⟨before, b, after, q, rfl, hq, hlt, hbefore, hafter⟩
      · left
        intro x hx r hr
        rcases List.mem_cons.mp hx with rfl | hx
        · exact ha r hr
        · exact hle x hx r hr
      · refine Or.inr ⟨a :: before, b, after, q, rfl, hq, hlt, ?_, hafter⟩
        intro x hx r hr
        rcases List.mem_cons.mp hx with rfl | hx
        · exact (ha r hr).trans_lt hlt
        · exact hbefore x hx r hr

end Better

/-- What is favoured is what the code computes. -/
theorem Favoured.eq (h : Favoured env rts answer choice id) : effectiveChoice env rts answer choice = id := by
  unfold effectiveChoice
  cases h with
  | scored hprobs hsplit hscore hpos hbefore hafter =>
    rw [hprobs, hsplit]
    dsimp only
    rw [foldl_better_eq hscore hpos hbefore hafter]
  | unscored hprobs hlow =>
    rw [hprobs]
    dsimp only
    rw [foldl_better_of_le hlow]
  | kept hprobs hkept =>
    rw [hprobs]
    dsimp only
    split
    · rename_i hdegraded
      have hall := hkept.resolve_left (not_le.mpr hdegraded)
      rw [List.find?_eq_none.mpr fun x hx => by rw [hall x hx]; exact Bool.false_ne_true]
      rfl
    · rfl
  | failover hprobs hdegraded hsplit hrt hbefore =>
    rw [hprobs, hsplit]
    dsimp only
    have hfind : ∀ before : List ResolvedTarget,
        (∀ x ∈ before, isAlternative env ((Quota.parseI64 choice).getD 0) x = false) →
        List.find? (isAlternative env ((Quota.parseI64 choice).getD 0)) before = none :=
      fun before hb => List.find?_eq_none.mpr fun x hx => by rw [hb x hx]; exact Bool.false_ne_true
    rw [if_pos hdegraded, List.find?_append, hfind _ hbefore, Option.none_or, List.find?_cons_of_pos hrt]
    rfl

theorem favoured_effectiveChoice (env : DecisionEnv) (rts : List ResolvedTarget) (answer : SystemOneAnswer)
    (choice : Text) : Favoured env rts answer choice (effectiveChoice env rts answer choice) := by
  have hexists : ∃ id, Favoured env rts answer choice id := by
    cases hprobs : answer.probabilities with
    | some probs =>
      rcases exists_first_best (scoreOf env probs) rts (-1) with hle | ⟨before, rt, after, s, hsplit, hs, hpos, hb, ha⟩
      · exact ⟨choice, .unscored hprobs hle⟩
      · exact ⟨rt.idText, .scored hprobs hsplit hs hpos hb ha⟩
    | none =>
      by_cases hkept : 2 / 5 ≤ env.reputation ((Quota.parseI64 choice).getD 0)
      · exact ⟨choice, .kept hprobs (Or.inl hkept)⟩
      · cases hfind : rts.find? (isAlternative env ((Quota.parseI64 choice).getD 0)) with
        | none =>
          refine ⟨choice, .kept hprobs (Or.inr fun x hx => ?_)⟩
          rw [← Bool.not_eq_true]
          exact List.find?_eq_none.mp hfind x hx
        | some rt =>
          obtain ⟨hrt, before, after, hsplit, hbefore⟩ := List.find?_eq_some_iff_append.mp hfind
          refine ⟨rt.idText, .failover hprobs (not_le.mp hkept) hsplit hrt fun x hx => ?_⟩
          rw [← Bool.not_eq_true', hbefore x hx]
  obtain ⟨id, hid⟩ := hexists
  rw [hid.eq]
  exact hid

/-! ### What the answer moves -/

/-- An index that is found splits the list. -/
theorem findIdx?_eq_some_iff_split {α : Type} {p : α → Bool} {l : List α} {i : Nat} : l.findIdx? p = some i ↔
    ∃ before a after, l = before ++ a :: after ∧ before.length = i ∧ p a = true ∧ ∀ x ∈ before, p x = false := by
  rw [List.findIdx?_eq_some_iff_getElem]
  constructor
  · rintro ⟨hi, hp, hbefore⟩
    refine ⟨l.take i, l[i], l.drop (i + 1), ?_, by rw [List.length_take]; omega, hp, fun x hx => ?_⟩
    · rw [← List.drop_eq_getElem_cons hi, List.take_append_drop]
    · obtain ⟨j, hj, rfl⟩ := List.getElem_of_mem hx
      rw [List.length_take] at hj
      rw [List.getElem_take, ← Bool.not_eq_true]
      exact hbefore j (by omega)
  · rintro ⟨before, a, after, rfl, rfl, hp, hbefore⟩
    refine ⟨by simp, by simpa using hp, fun j hj => ?_⟩
    rw [List.getElem_append_left hj, hbefore _ (List.getElem_mem hj)]
    exact Bool.false_ne_true

/-- The entry that the answer moves is the first one with the favoured id. -/
theorem switchPosition_eq_some_iff : switchPosition env messages rts pinned answer = some pos ∧ rts[pos]? = some rt ↔
    ∃ choice before after, answer.choice = some choice ∧ rts = before ++ rt :: after ∧ before.length = pos ∧
      rt.idText = effectiveChoice env rts answer choice ∧
      (∀ x ∈ before, x.idText ≠ effectiveChoice env rts answer choice) ∧
      switchesTo messages answer pinned rt = true := by
  unfold switchPosition
  simp only [Option.bind_eq_bind, Option.bind_eq_some_iff, findIdx?_eq_some_iff_split, decide_eq_true_eq,
    decide_eq_false_iff_not]
  constructor
  · rintro ⟨⟨choice, hchoice, pos', ⟨before, a, after, rfl, rfl, hid, hbefore⟩, rt', hrt', hto⟩, hrt⟩
    split at hto
    · rename_i hswitch
      obtain rfl := Option.some_inj.mp hto
      rw [List.getElem?_append_right le_rfl, Nat.sub_self, List.getElem?_cons_zero] at hrt hrt'
      obtain rfl := Option.some_inj.mp hrt
      obtain rfl := Option.some_inj.mp hrt'
      exact ⟨choice, before, after, hchoice, rfl, rfl, hid, hbefore, hswitch⟩
    · cases hto
  · rintro ⟨choice, before, after, hchoice, rfl, rfl, hid, hbefore, hswitch⟩
    have hrt : (before ++ rt :: after)[before.length]? = some rt := by
      rw [List.getElem?_append_right le_rfl, Nat.sub_self, List.getElem?_cons_zero]
    exact ⟨⟨choice, hchoice, before.length, ⟨before, rt, after, rfl, rfl, hid, hbefore⟩, rt, hrt, if_pos hswitch⟩, hrt⟩

theorem favoursEligible_iff : FavoursEligible env messages rts pinned answer ↔
    ∀ pos rt, switchPosition env messages rts pinned answer = some pos → rts[pos]? = some rt → Eligible env rts rt := by
  constructor
  · intro h pos rt hswitch hrt
    obtain ⟨choice, before, after, hchoice, hsplit, -, hid, hbefore, hto⟩ := switchPosition_eq_some_iff.mp ⟨hswitch, hrt⟩
    exact h choice _ before rt after hchoice (favoured_effectiveChoice env rts answer choice) hsplit hid hbefore hto
  · intro h choice id before rt after hchoice hfavoured hsplit hid hbefore hto
    rw [← hfavoured.eq] at hid hbefore
    obtain ⟨hswitch, hrt⟩ :=
      switchPosition_eq_some_iff.mpr ⟨choice, before, after, hchoice, hsplit, rfl, hid, hbefore, hto⟩
    exact h _ rt hswitch hrt

/-- The router does what it promises if and only if, where it asks and gets an answer, the first entry with the favoured id
passes the checks when it is one to switch to. -/
theorem routesSafely_iff (env : DecisionEnv) (messages : List OpenAIMessage) (rts : List ResolvedTarget)
    (pinned : Option Int) (answer : Option SystemOneAnswer) :
    RoutesSafely env messages rts pinned answer ↔
      (2 ≤ rts.length → asks env messages (prePromote rts (availablePinned env rts pinned)) = true →
        ∀ a, answer = some a → FavoursEligible env messages (prePromote rts (availablePinned env rts pinned))
          (availablePinned env rts pinned) a) := by
  unfold RoutesSafely
  rw [and_iff_right (reordered_applyDecisionRouting env messages rts pinned answer)]
  unfold decision
  by_cases hshort : rts.length < 2
  · rw [if_pos hshort]
    refine iff_of_true ?_ fun h => absurd h (by omega)
    rintro asked pos rt ⟨⟩
  · rw [if_neg hshort, imp_iff_right (Nat.le_of_not_lt hshort)]
    dsimp only
    constructor
    · rintro h hasks a rfl
      refine favoursEligible_iff.mpr fun pos rt hswitch hrt => ?_
      rw [if_pos hasks] at h
      exact h _ pos rt (Prod.ext rfl hswitch) hrt
    · rintro h asked pos rt heq hrt
      obtain ⟨rfl, hpos⟩ := Prod.mk.inj heq
      split at hpos
      · rename_i hasks
        cases answer with
        | none => cases hpos
        | some a => exact favoursEligible_iff.mp (h hasks a rfl) pos rt hpos hrt
      · cases hpos

end

/-! ### A degraded choice -/

def plainTarget (id : Int) : ResolvedTarget where
  target :=
    { id := id, comboId := 1, providerId := [], accountId := none, modelRowId := none, subComboId := none,
      priorityOrder := id, weight := 1, active := true, rateLimitScope := .account, cooldownMode := none,
      cooldownBaseSecs := none, cooldownMaxSecs := none, cooldownFactor := none, thinkingEffort := none,
      description := some (intText id), selectedAccounts := none, clientProfile := none, inheritedTargetId := none }
  modelActive := true
  contextLength := none

/-- The third target is in cooldown, and the first one has failed. -/
def coolingEnv : DecisionEnv where
  combo := { cooldownMode := .flat, cooldownBaseSecs := none, preventiveRateLimit := false }
  cooldowns := [3]
  limiter := ⟨fun _ => ∅⟩
  hash := fun _ => 0
  nowMs := 0
  reputation := fun id => if id = 1 then 1 / 10 else if id = 3 then 1 else 1 / 2

def firstChosen : SystemOneAnswer where
  choice := some "1".toList
  probabilities := none
  confidence := none

/-- The choice is one of the two options, and the target in cooldown is put in front. -/
theorem not_routesSafely_degraded :
    (filterDecisionCandidates coolingEnv [plainTarget 1, plainTarget 2, plainTarget 3]).map (·.1) =
        ["1".toList, "2".toList] ∧
      (applyDecisionRouting coolingEnv [userMessage "hi".toList] [plainTarget 1, plainTarget 2, plainTarget 3] none
        (some firstChosen)).map (·.target.id) = [3, 1, 2] ∧
      ¬ RoutesSafely coolingEnv [userMessage "hi".toList] [plainTarget 1, plainTarget 2, plainTarget 3] none
        (some firstChosen) := by
  refine ⟨by decide +kernel, by decide +kernel, fun h => ?_⟩
  have hmoved : (decision coolingEnv [userMessage "hi".toList] [plainTarget 1, plainTarget 2, plainTarget 3] none
      (some firstChosen)).2 = some 2 := by decide +kernel
  have hunchecked := h.2 _ 2 (plainTarget 3) (Prod.ext rfl hmoved) rfl
  revert hunchecked
  unfold Eligible
  decide +kernel

end OpenProxy.Combos
