import OpenProxy.Models.Normalize
import OpenProxy.Usage.Pricing
import Mathlib.Data.List.Pairwise

/-!
# Looking up a price

`PRICING_TABLE` is a hash map, so what its enumeration finds first may be any entry that matches.  `lookup` falls back to
an entry with the same model and then to one with the same normal form, whatever its provider.  Two normal forms of the
table have entries with different prices, and `lookup_deterministic_iff` says for which models the order is seen.

Prices are rational numbers, as in `OpenProxy.Usage.Price`.
-/

namespace OpenProxy.Usage

open Models (normalizeModelId)

/-! ### The table -/

/-- An entry of the catalog, with the defaults for what the catalog does not say. -/
def catalogEntry (provider model : String) (inp out : ℚ) : (Text × Text) × Price :=
  ((provider.toList, model.toList), { inputPer1m := inp, outputPer1m := out, kind := .chat, audioPerHour := none })

def pricingTable : List ((Text × Text) × Price) :=
  [catalogEntry "openrouter" "anthropic/claude-sonnet-4" 3.0 15.0,
    catalogEntry "openrouter" "anthropic/claude-3-5-sonnet" 3.0 15.0,
    catalogEntry "openrouter" "anthropic/claude-3-haiku" 0.25 1.25,
    catalogEntry "openrouter" "openai/gpt-4o" 2.5 10.0,
    catalogEntry "openrouter" "openai/gpt-4o-mini" 0.15 0.6,
    catalogEntry "openrouter" "openai/gpt-4.1" 2.0 8.0,
    catalogEntry "openrouter" "openai/gpt-4.1-mini" 0.4 1.6,
    catalogEntry "openrouter" "google/gemini-2.5-pro" 1.25 10.0,
    catalogEntry "openrouter" "google/gemini-2.5-flash" 0.075 0.30,
    catalogEntry "openrouter" "meta-llama/llama-3.3-70b-instruct" 0.59 0.79,
    catalogEntry "openrouter" "deepseek/deepseek-chat" 0.14 0.28,
    catalogEntry "openrouter" "deepseek/deepseek-r1" 0.55 2.19,
    catalogEntry "openrouter" "qwen/qwen-2.5-72b-instruct" 0.23 0.40,
    catalogEntry "openrouter" "mistralai/mistral-large" 2.0 6.0,
    catalogEntry "openrouter" "x-ai/grok-2" 2.0 10.0,
    catalogEntry "minimax" "minimax-m2.1" 0.2 0.2,
    catalogEntry "minimax" "MiniMax-M2" 0.2 0.2,
    catalogEntry "minimax" "MiniMax-M3" 1.0 1.0,
    catalogEntry "nvidia-nim" "minimaxai/minimax-m3" 1.0 1.0,
    catalogEntry "tokenrouter" "MiniMax-M3" 1.0 1.0,
    catalogEntry "nvidia-nim" "meta/llama-3.3-70b-instruct" 0.77 0.77,
    catalogEntry "nvidia-nim" "meta/llama-3.1-8b-instruct" 0.18 0.18,
    catalogEntry "nvidia-nim" "nvidia/nemotron-3-ultra-550b-a55b" 0.77 0.77,
    catalogEntry "nvidia-nim" "moonshotai/kimi-k2.6" 0.60 2.50,
    catalogEntry "nvidia-nim" "z-ai/glm-5.1" 0.14 0.28,
    catalogEntry "nvidia-nim" "z-ai/glm-4.6" 0.14 0.28,
    catalogEntry "zenmux" "z-ai/glm-5.2" 0.14 0.28,
    catalogEntry "vercel-gateway" "zai/glm-5.2" 0.0 0.0,
    catalogEntry "vercel-gateway" "zai/glm-5.2-fast" 0.0 0.0]

/-- The normal forms with more than one price. -/
def ambiguousForms : List Text := ["llama-3.3-70b-instruct".toList, "glm-5.2".toList]

theorem catalogEntry_ofList (provider model : List Char) (inp out : ℚ) :
    catalogEntry (.ofList provider) (.ofList model) inp out =
      ((provider, model), { inputPer1m := inp, outputPer1m := out, kind := .chat, audioPerHour := none }) := by
  simp only [catalogEntry, String.toList_ofList]

private theorem pricingTable_pairwise : pricingTable.Pairwise fun e e' =>
    e.1 ≠ e'.1 ∧ (e.1.2 = e'.1.2 → e.2 = e'.2) ∧
      (normalizeModelId e.1.2 = normalizeModelId e'.1.2 → normalizeModelId e.1.2 ∈ ambiguousForms ∨ e.2 = e'.2) := by
  -- the names are lists of characters before the table is evaluated
  suffices htable : ∃ table, pricingTable = table ∧ table.Pairwise fun e e' =>
      e.1 ≠ e'.1 ∧ (e.1.2 = e'.1.2 → e.2 = e'.2) ∧
        (normalizeModelId e.1.2 = normalizeModelId e'.1.2 → normalizeModelId e.1.2 ∈ ambiguousForms ∨ e.2 = e'.2) by
    obtain ⟨table, rfl, hpairwise⟩ := htable
    exact hpairwise
  apply Exists.intro
  apply And.intro
  · unfold pricingTable
    iterate 29 apply congrArg₂ List.cons (catalogEntry_ofList _ _ _ _)
    rfl
  · decide +kernel

theorem price_eq_of_model : ∀ e ∈ pricingTable, ∀ e' ∈ pricingTable, e.1.2 = e'.1.2 → e.2 = e'.2 := by
  apply List.Pairwise.forall_of_forall_of_flip
  · exact fun e _ _ => rfl
  · exact pricingTable_pairwise.imp fun h => h.2.1
  · exact pricingTable_pairwise.imp fun h he => (h.2.1 he.symm).symm

theorem price_eq_of_form : ∀ e ∈ pricingTable, ∀ e' ∈ pricingTable,
    normalizeModelId e.1.2 = normalizeModelId e'.1.2 → normalizeModelId e.1.2 ∈ ambiguousForms ∨ e.2 = e'.2 := by
  apply List.Pairwise.forall_of_forall_of_flip
  · exact fun e _ _ => .inr rfl
  · exact pricingTable_pairwise.imp fun h => h.2.2
  · refine pricingTable_pairwise.imp fun h he => ?_
    rw [he]
    exact (h.2.2 he.symm).imp_right Eq.symm

/-! ### The lookup -/

/-- `lookup`, where the hash map enumerates its entries in the given order. -/
def lookup (entries : List ((Text × Text) × Price)) (provider model : Text) : Option Price :=
  match entries.find? fun entry => entry.1 = (provider, model) with
  | some (_, price) => some price
  | none =>
    match entries.find? fun entry => entry.1.2 = model with
    | some (_, price) => some price
    | none =>
      let normalized := normalizeModelId model
      match entries.find? fun entry => normalizeModelId entry.1.2 = normalized with
      | some (_, price) => some price
      | none => none

/-- The price of the first entry that passes the test. -/
def firstPrice (entries : List ((Text × Text) × Price)) (test : (Text × Text) × Price → Bool) : Option Price :=
  (entries.find? test).map Prod.snd

theorem lookup_eq (entries : List ((Text × Text) × Price)) (provider model : Text) :
    lookup entries provider model =
      ((firstPrice entries fun entry => entry.1 = (provider, model)).or
        ((firstPrice entries fun entry => entry.1.2 = model).or
          (firstPrice entries fun entry => normalizeModelId entry.1.2 = normalizeModelId model))) := by
  unfold lookup firstPrice
  cases entries.find? fun entry => decide (entry.1 = (provider, model)) with
  | some entry => rfl
  | none =>
    cases entries.find? fun entry => decide (entry.1.2 = model) with
    | some entry => rfl
    | none =>
      dsimp only
      cases entries.find? fun entry => decide (normalizeModelId entry.1.2 = normalizeModelId model) with
      | some entry => rfl
      | none => rfl

theorem firstPrice_perm {entries entries' : List ((Text × Text) × Price)} (hp : entries.Perm entries')
    {test : (Text × Text) × Price → Bool}
    (same : ∀ e ∈ entries, ∀ e' ∈ entries, test e → test e' → e.2 = e'.2) :
    firstPrice entries test = firstPrice entries' test := by
  unfold firstPrice
  cases h : entries.find? test with
  | none =>
    have hnone : entries'.find? test = none := by
      rw [List.find?_eq_none] at h ⊢
      exact fun e he => h e (hp.mem_iff.2 he)
    rw [hnone]
  | some e =>
    have hsome : (entries'.find? test).isSome := by
      rw [List.find?_isSome]
      exact ⟨e, hp.mem_iff.1 (List.mem_of_find?_eq_some h), List.find?_some h⟩
    obtain ⟨e', he'⟩ := Option.isSome_iff_exists.1 hsome
    rw [he', Option.map_some, Option.map_some]
    congr 1
    exact same e (List.mem_of_find?_eq_some h) e' (hp.mem_iff.2 (List.mem_of_find?_eq_some he'))
      (List.find?_some h) (List.find?_some he')

/-! ### The order of the enumeration -/

theorem firstPrice_pricingTable {entries entries' : List ((Text × Text) × Price)} (hp : entries.Perm pricingTable)
    (hp' : entries'.Perm pricingTable) {test : (Text × Text) × Price → Bool}
    (same : ∀ e ∈ pricingTable, ∀ e' ∈ pricingTable, test e → test e' → e.2 = e'.2) :
    firstPrice entries test = firstPrice entries' test := by
  rw [← firstPrice_perm hp.symm same, ← firstPrice_perm hp'.symm same]

/-- A model of the table is found under its own name, at a price that does not depend on the provider. -/
theorem firstPrice_model_isSome {entries : List ((Text × Text) × Price)} (hp : entries.Perm pricingTable) {model : Text}
    (h : model ∈ pricingTable.map fun entry => entry.1.2) :
    (firstPrice entries fun entry => entry.1.2 = model).isSome := by
  obtain ⟨e, he, rfl⟩ := List.mem_map.1 h
  unfold firstPrice
  rw [Option.isSome_map, List.find?_isSome]
  exact ⟨e, hp.mem_iff.2 he, by simp⟩

/-- A model that is not in the table is looked up by its normal form. -/
theorem lookup_of_notMem {entries : List ((Text × Text) × Price)} (hp : entries.Perm pricingTable) {model : Text}
    (h : model ∉ pricingTable.map fun entry => entry.1.2) (provider : Text) :
    lookup entries provider model =
      firstPrice entries fun entry => normalizeModelId entry.1.2 = normalizeModelId model := by
  have hother : ∀ e ∈ entries, e.1.2 ≠ model := fun e he hm =>
    h (List.mem_map.2 ⟨e, hp.mem_iff.1 he, hm⟩)
  have hkey : (firstPrice entries fun entry => entry.1 = (provider, model)) = none := by
    rw [firstPrice, Option.map_eq_none_iff, List.find?_eq_none]
    intro e he hk
    exact hother e he (congrArg Prod.snd (of_decide_eq_true hk))
  have hmodel : (firstPrice entries fun entry => entry.1.2 = model) = none := by
    rw [firstPrice, Option.map_eq_none_iff, List.find?_eq_none]
    exact fun e he hm => hother e he (of_decide_eq_true hm)
  rw [lookup_eq, hkey, hmodel, Option.none_or, Option.none_or]

/-- An entry that matches is found first by some enumeration. -/
theorem exists_firstPrice {e : (Text × Text) × Price} (he : e ∈ pricingTable) {test : (Text × Text) × Price → Bool}
    (ht : test e) : ∃ entries, entries.Perm pricingTable ∧ firstPrice entries test = some e.2 := by
  refine ⟨e :: pricingTable.erase e, (List.perm_cons_erase he).symm, ?_⟩
  rw [firstPrice, List.find?_cons_of_pos ht, Option.map_some]

/-- An ambiguous normal form is that of two entries with different prices. -/
theorem exists_prices_of_ambiguous : ∀ form ∈ ambiguousForms, ∃ e ∈ pricingTable, ∃ e' ∈ pricingTable,
    normalizeModelId e.1.2 = form ∧ normalizeModelId e'.1.2 = form ∧ e.2 ≠ e'.2 := by
  intro form hform
  simp only [ambiguousForms, List.mem_cons, List.not_mem_nil, or_false] at hform
  rcases hform with rfl | rfl
  · exact ⟨catalogEntry "openrouter" "meta-llama/llama-3.3-70b-instruct" 0.59 0.79, by simp [pricingTable],
      catalogEntry "nvidia-nim" "meta/llama-3.3-70b-instruct" 0.77 0.77, by simp [pricingTable],
      by decide +kernel, by decide +kernel, by decide +kernel⟩
  · exact ⟨catalogEntry "zenmux" "z-ai/glm-5.2" 0.14 0.28, by simp [pricingTable],
      catalogEntry "vercel-gateway" "zai/glm-5.2" 0.0 0.0, by simp [pricingTable],
      by decide +kernel, by decide +kernel, by decide +kernel⟩

/-- The price does not depend on the enumeration, exactly for the models that the table names and for those whose normal
form has one price. -/
theorem lookup_deterministic_iff (provider model : Text) :
    (∀ entries entries', entries.Perm pricingTable → entries'.Perm pricingTable →
        lookup entries provider model = lookup entries' provider model) ↔
      (model ∈ pricingTable.map fun entry => entry.1.2) ∨ normalizeModelId model ∉ ambiguousForms := by
  constructor
  · intro h
    by_contra hnot
    obtain ⟨hmodel, hform⟩ := not_or.1 hnot
    obtain ⟨e, he, e', he', hform, hform', hprice⟩ := exists_prices_of_ambiguous _ (not_not.1 hform)
    obtain ⟨entries, hp, hfirst⟩ := @exists_firstPrice e he
      (fun entry => normalizeModelId entry.1.2 = normalizeModelId model) (decide_eq_true hform)
    obtain ⟨entries', hp', hfirst'⟩ := @exists_firstPrice e' he'
      (fun entry => normalizeModelId entry.1.2 = normalizeModelId model) (decide_eq_true hform')
    have heq := h entries entries' hp hp'
    rw [lookup_of_notMem hp hmodel, lookup_of_notMem hp' hmodel, hfirst, hfirst'] at heq
    exact hprice (Option.some.inj heq)
  · rintro h entries entries' hp hp'
    have hmodels : (firstPrice entries fun entry => entry.1.2 = model) =
        firstPrice entries' fun entry => entry.1.2 = model := by
      apply firstPrice_pricingTable hp hp'
      intro e he e' he' ht ht'
      exact price_eq_of_model e he e' he' ((of_decide_eq_true ht).trans (of_decide_eq_true ht').symm)
    have hkeys : (firstPrice entries fun entry => entry.1 = (provider, model)) =
        firstPrice entries' fun entry => entry.1 = (provider, model) := by
      apply firstPrice_pricingTable hp hp'
      intro e he e' he' ht ht'
      have hsame := (of_decide_eq_true ht).trans (of_decide_eq_true ht').symm
      exact price_eq_of_model e he e' he' (congrArg Prod.snd hsame)
    rw [lookup_eq, lookup_eq, hkeys, hmodels]
    rcases h with h | h
    · obtain ⟨price, hprice⟩ := Option.isSome_iff_exists.1 (firstPrice_model_isSome hp' h)
      rw [hprice, Option.some_or, Option.some_or]
    · have hforms : (firstPrice entries fun entry => normalizeModelId entry.1.2 = normalizeModelId model) =
          firstPrice entries' fun entry => normalizeModelId entry.1.2 = normalizeModelId model := by
        apply firstPrice_pricingTable hp hp'
        intro e he e' he' ht ht'
        have hform := of_decide_eq_true ht
        refine (price_eq_of_form e he e' he' (hform.trans (of_decide_eq_true ht').symm)).resolve_left ?_
        rwa [hform]
      rw [hforms]

/-- Two providers of one model, at two prices. -/
theorem lookup_llama :
    pricingTable.reverse.Perm pricingTable ∧
      lookup pricingTable "groq".toList "llama-3.3-70b-instruct".toList = some ⟨0.59, 0.79, .chat, none⟩ ∧
      lookup pricingTable.reverse "groq".toList "llama-3.3-70b-instruct".toList = some ⟨0.77, 0.77, .chat, none⟩ := by
  refine ⟨List.reverse_perm _, ?_⟩
  suffices htable : ∃ table, pricingTable = table ∧
      lookup table "groq".toList "llama-3.3-70b-instruct".toList = some ⟨0.59, 0.79, .chat, none⟩ ∧
      lookup table.reverse "groq".toList "llama-3.3-70b-instruct".toList = some ⟨0.77, 0.77, .chat, none⟩ by
    obtain ⟨table, rfl, hlookup⟩ := htable
    exact hlookup
  apply Exists.intro
  apply And.intro
  · unfold pricingTable
    iterate 29 apply congrArg₂ List.cons (catalogEntry_ofList _ _ _ _)
    rfl
  · decide +kernel

end OpenProxy.Usage
