import OpenProxy.Compression.Normalize
import OpenProxy.Data.Sift

/-!
# Lite compression

`apply_lite` changes the texts of the messages and then deletes messages: in a run of system messages those that begin
like an earlier one, and messages without tools that repeat the one before.  Two system messages are compared by the
first 200 characters of their contents, where a content that is not a string counts as empty.  So only duplicates are
deleted if and only if, within every run of system messages, those with the same beginning have the same content and the
later one has no tools (`losslessLite_iff`).
-/

namespace OpenProxy.Compression

open Json

/-! ### Deleting messages -/

/-- The text of a content that is a string. -/
def contentStr (msg : OpenAIMessage) : Option Text := msg.content.bind asStr

/-- What `dedup_system_prompt` compares. -/
def systemPrefix (msg : OpenAIMessage) : Text := ((contentStr msg).map (List.take 200)).getD []

/-- A message in the loop of `dedup_system_prompt`. -/
def dedupStep (seenPrefixes : List Text) (msg : OpenAIMessage) : List Text × Bool :=
  if msg.role ≠ Role.system then ([], true)
  else if seenPrefixes.contains (systemPrefix msg) then (seenPrefixes, false)
  else (seenPrefixes ++ [systemPrefix msg], true)

/-- `dedup_system_prompt`. -/
def dedupSystemPrompt (msgs : List OpenAIMessage) : List OpenAIMessage × List Text :=
  let marks := sift dedupStep [] msgs
  (kept marks, (deleted marks).map fun _ => "lite::dedup_system_prompt".toList)

/-- `message_has_tools`. -/
def messageHasTools (msg : OpenAIMessage) : Bool := msg.toolCalls.isSome || msg.toolCallId.isSome

/-- `messages_are_redundant_duplicates`. -/
def messagesAreRedundantDuplicates (prev curr : OpenAIMessage) : Bool :=
  if messageHasTools prev || messageHasTools curr then false
  else
    let prevContent := (contentStr prev).getD []
    let currContent := (contentStr curr).getD []
    prev.role == curr.role && !prevContent.isEmpty && prevContent == currContent

/-- A message in the loop of `remove_redundant_content`, after the last one that is kept. -/
def redundantStep (prev : Option OpenAIMessage) (msg : OpenAIMessage) : Option OpenAIMessage × Bool :=
  if prev.any fun prev => messagesAreRedundantDuplicates prev msg then (prev, false) else (some msg, true)

/-- `remove_redundant_content`. -/
def removeRedundantContent (msgs : List OpenAIMessage) : List OpenAIMessage × List Text :=
  let marks := sift redundantStep none msgs
  (kept marks, (deleted marks).map fun _ => "lite::remove_redundant".toList)

/-- `apply_lite`. -/
def applyLite (msgs : List OpenAIMessage) : List OpenAIMessage × List Text :=
  let (msgs, cleaned) := cleanInvisibleUnicode msgs
  let (msgs, stripped) := stripAnsiEscapes msgs
  let (msgs, collapsed) := collapseWhitespace msgs
  let (msgs, separators) := collapseAsciiSeparators msgs
  let (msgs, compacted) := compactJson msgs
  let (msgs, deduped) := dedupSystemPrompt msgs
  let (msgs, removed) := removeRedundantContent msgs
  (msgs, cleaned ++ stripped ++ collapsed ++ separators ++ compacted ++ deduped ++ removed)

/-! ### The messages that are deleted -/

/-- The normalised messages, each with whether the two loops keep it. -/
def liteMarks (msgs : List OpenAIMessage) : List (OpenAIMessage × Bool) :=
  let marks := sift dedupStep [] msgs
  withLater marks (sift redundantStep none (kept marks))

/-- The messages after the passes over their texts. -/
def normalized (msgs : List OpenAIMessage) : List OpenAIMessage :=
  (compactJson (collapseAsciiSeparators (collapseWhitespace (stripAnsiEscapes (cleanInvisibleUnicode msgs).1).1).1).1).1

/-- Two messages with the same role and the same content. -/
def SameMessage (msg msg' : OpenAIMessage) : Prop := msg.role = msg'.role ∧ msg.content = msg'.content

/-- Every message that is deleted has no tools, and the same role and content as one that is kept: one in its run of
system messages, or the last one before it.  `run` has the messages that are kept of the run that the list goes on
with, and `last` is the last message that is kept. -/
def OnlyDuplicates (run : List OpenAIMessage) (last : Option OpenAIMessage) : List (OpenAIMessage × Bool) → Prop
  | [] => True
  | (msg, true) :: marks => OnlyDuplicates (if msg.role = Role.system then run ++ [msg] else []) (some msg) marks
  | (msg, false) :: marks =>
    (messageHasTools msg = false ∧
      ((msg.role = Role.system ∧ ∃ earlier ∈ run, SameMessage earlier msg) ∨
        ∃ earlier, last = some earlier ∧ SameMessage earlier msg)) ∧
      OnlyDuplicates (if msg.role = Role.system then run else []) last marks

/-- A message in which only the content is another one. -/
def OnlyContent (msg msg' : OpenAIMessage) : Prop := msg' = { msg with content := msg'.content }

/-- The result has the messages with their normalised texts, in their order, without duplicates. -/
structure LosslessLite (msgs : List OpenAIMessage) : Prop where
  texts : List.Forall₂ OnlyContent msgs (normalized msgs)
  result : (applyLite msgs).1 = kept (liteMarks (normalized msgs))
  messages : (liteMarks (normalized msgs)).map (·.1) = normalized msgs
  onlyDuplicates : OnlyDuplicates [] none (liteMarks (normalized msgs))

/-- The beginning of a system message tells its content, and the later one has no tools. -/
def PrefixTells (earlier later : OpenAIMessage) : Prop :=
  systemPrefix earlier = systemPrefix later → earlier.content = later.content ∧ messageHasTools later = false

/-- The runs of system messages. -/
def systemRuns (msgs : List OpenAIMessage) : List (List OpenAIMessage) := msgs.splitOnP fun msg => msg.role ≠ Role.system

/-! ### What the passes keep -/

theorem OnlyContent.trans {msg msg' msg'' : OpenAIMessage} (h : OnlyContent msg msg') (h' : OnlyContent msg' msg'') :
    OnlyContent msg msg'' := by
  unfold OnlyContent at *
  rw [h', h]

theorem onlyContent_pass {msgs msgs' : List OpenAIMessage} (h : List.Forall₂ OnlyContent msgs msgs') (technique : Text)
    (transform : Text → Option Text) : List.Forall₂ OnlyContent msgs (pass technique transform msgs').1 := by
  have hpass := pass_replaces technique transform msgs'
  induction h with
  | nil => exact List.Forall₂.nil
  | cons hhead _ ih =>
    obtain ⟨hfirst, hrest⟩ := List.forall₂_cons.mp hpass
    exact List.Forall₂.cons (hhead.trans hfirst.rest) (ih hrest)

theorem onlyContent_normalized (msgs : List OpenAIMessage) : List.Forall₂ OnlyContent msgs (normalized msgs) := by
  have hself : List.Forall₂ OnlyContent msgs msgs := List.forall₂_same.mpr fun _ _ => rfl
  unfold normalized compactJson collapseAsciiSeparators collapseWhitespace stripAnsiEscapes cleanInvisibleUnicode
  iterate 5 apply onlyContent_pass
  exact hself

/-! ### What the loops keep -/

theorem liteMarks_eq (msgs : List OpenAIMessage) :
    liteMarks msgs = sift (both dedupStep redundantStep) ([], none) msgs := sift_both _ _ msgs

theorem applyLite_eq (msgs : List OpenAIMessage) : (applyLite msgs).1 = kept (liteMarks (normalized msgs)) :=
  (kept_withLater _ _ (normalized msgs)).symm

theorem sameMessage_of_redundant {prev msg : OpenAIMessage} (h : messagesAreRedundantDuplicates prev msg = true) :
    messageHasTools msg = false ∧ SameMessage prev msg := by
  have hstr : ∀ m : OpenAIMessage, (contentStr m).getD [] ≠ [] → m.content = some (string ((contentStr m).getD [])) := by
    intro m hne
    unfold contentStr at hne ⊢
    cases hcontent : m.content with
    | none => simp [hcontent] at hne
    | some v => cases v <;> simp_all [asStr]
  unfold messagesAreRedundantDuplicates at h
  split_ifs at h with htools
  rw [Bool.not_eq_true, Bool.or_eq_false_iff] at htools
  simp only [Bool.and_eq_true, beq_iff_eq, Bool.not_eq_true', List.isEmpty_eq_false_iff] at h
  obtain ⟨⟨hrole, hne⟩, hcontent⟩ := h
  refine ⟨htools.2, hrole, ?_⟩
  rw [hstr prev hne, hstr msg (hcontent ▸ hne), hcontent]

theorem systemPrefix_of_sameMessage {msg msg' : OpenAIMessage} (h : SameMessage msg msg') :
    systemPrefix msg = systemPrefix msg' := by
  simp [systemPrefix, contentStr, h.2]

/-- What the loops remember of a run of system messages, of which `all` has been read and `run` has been kept. -/
structure Remembers (all run : List OpenAIMessage) (seenPrefixes : List Text) (last : Option OpenAIMessage) : Prop where
  seen : seenPrefixes = run.map systemPrefix
  distinct : seenPrefixes.Nodup
  kept : ∀ msg ∈ run, msg ∈ all
  covered : ∀ msg ∈ all, ∃ earlier ∈ run, systemPrefix earlier = systemPrefix msg ∧ earlier.content = msg.content
  system : ∀ msg ∈ run, msg.role = Role.system
  last : ∀ msg, last = some msg → msg.role = Role.system → msg ∈ run

theorem remembers_start : Remembers [] [] [] none where
  seen := rfl
  distinct := List.nodup_nil
  kept := by simp
  covered := by simp
  system := by simp
  last := by simp

section

variable {all run : List OpenAIMessage} {seenPrefixes : List Text} {last : Option OpenAIMessage} {msg : OpenAIMessage}

/-- A message that repeats the last one is not a system message that `dedup_system_prompt` keeps. -/
theorem Remembers.not_redundant (h : Remembers all run seenPrefixes last) (hrole : msg.role = Role.system)
    (hnew : systemPrefix msg ∉ seenPrefixes) : (redundantStep last msg) = (some msg, true) := by
  unfold redundantStep
  refine if_neg ?_
  intro hany
  obtain ⟨prev, rfl, hprev⟩ := (Option.any_eq_true _ _).mp hany
  obtain ⟨-, hsame⟩ := sameMessage_of_redundant hprev
  have hmem := h.last prev rfl (hsame.1.trans hrole)
  apply hnew
  rw [h.seen, ← systemPrefix_of_sameMessage hsame]
  exact List.mem_map_of_mem hmem

/-- A system message with a new beginning. -/
theorem Remembers.add (h : Remembers all run seenPrefixes last) (hrole : msg.role = Role.system)
    (hnew : systemPrefix msg ∉ seenPrefixes) :
    Remembers (all ++ [msg]) (run ++ [msg]) (seenPrefixes ++ [systemPrefix msg]) (some msg) where
  seen := by simp [h.seen]
  distinct := by
    rw [List.nodup_append]
    refine ⟨h.distinct, List.nodup_singleton _, ?_⟩
    rintro p hp q hq rfl
    rw [List.mem_singleton] at hq
    exact hnew (hq ▸ hp)
  kept := by
    intro m hm
    rw [List.mem_append] at hm ⊢
    exact hm.imp (h.kept m) id
  covered := by
    intro m hm
    rcases List.mem_append.mp hm with hm | hm
    · obtain ⟨earlier, hearlier, hsame⟩ := h.covered m hm
      exact ⟨earlier, List.mem_append_left _ hearlier, hsame⟩
    · rw [List.mem_singleton] at hm
      exact ⟨msg, by simp, by rw [hm], by rw [hm]⟩
  system := by
    intro m hm
    rcases List.mem_append.mp hm with hm | hm
    · exact h.system m hm
    · rw [List.mem_singleton] at hm
      rw [hm]
      exact hrole
  last := by
    rintro m heq -
    cases heq
    simp

/-- A system message that is deleted has the content of one that is kept. -/
theorem Remembers.skip (h : Remembers all run seenPrefixes last)
    (hsame : ∃ earlier ∈ run, systemPrefix earlier = systemPrefix msg ∧ earlier.content = msg.content) :
    Remembers (all ++ [msg]) run seenPrefixes last where
  seen := h.seen
  distinct := h.distinct
  kept := fun m hm => List.mem_append_left _ (h.kept m hm)
  covered := by
    intro m hm
    rcases List.mem_append.mp hm with hm | hm
    · exact h.covered m hm
    · rw [List.mem_singleton] at hm
      rw [hm]
      exact hsame
  system := h.system
  last := h.last

/-- The run ends. -/
theorem remembers_other (hlast : ∀ msg, last = some msg → msg.role ≠ Role.system) : Remembers [] [] [] last where
  seen := rfl
  distinct := List.nodup_nil
  kept := by simp
  covered := by simp
  system := by simp
  last := fun msg hmsg hrole => absurd hrole (hlast msg hmsg)

/-- Two messages of the run that are kept and begin alike are the same. -/
theorem Remembers.eq_of_prefix (h : Remembers all run seenPrefixes last) {m m' : OpenAIMessage} (hm : m ∈ run)
    (hm' : m' ∈ run) (heq : systemPrefix m = systemPrefix m') : m = m' := by
  have hnodup := h.distinct
  rw [h.seen] at hnodup
  exact List.inj_on_of_nodup_map hnodup hm hm' heq

/-- What makes deleting a system message right: all messages of the run that begin like it have its content. -/
theorem Remembers.deletes_iff (h : Remembers all run seenPrefixes last) (hseen : systemPrefix msg ∈ seenPrefixes)
    (hrole : msg.role = Role.system) :
    (messageHasTools msg = false ∧
      ((msg.role = Role.system ∧ ∃ earlier ∈ run, SameMessage earlier msg) ∨
        ∃ earlier, last = some earlier ∧ SameMessage earlier msg)) ↔ ∀ earlier ∈ all, PrefixTells earlier msg := by
  constructor
  · rintro ⟨htools, hsame⟩ earlier hearlier hprefix
    refine ⟨?_, htools⟩
    obtain ⟨twin, htwin, hsame⟩ : ∃ twin ∈ run, SameMessage twin msg := by
      rcases hsame with ⟨-, hsame⟩ | ⟨twin, hlast, hsame⟩
      · exact hsame
      · exact ⟨twin, h.last twin hlast (hsame.1.trans hrole), hsame⟩
    obtain ⟨first, hfirst, hfirstPrefix, hfirstContent⟩ := h.covered earlier hearlier
    have heq : first = twin := by
      apply h.eq_of_prefix hfirst htwin
      rw [hfirstPrefix, hprefix, systemPrefix_of_sameMessage hsame]
    rw [← hfirstContent, heq, hsame.2]
  · intro htells
    rw [h.seen, List.mem_map] at hseen
    obtain ⟨earlier, hearlier, hprefix⟩ := hseen
    obtain ⟨hcontent, htools⟩ := htells earlier (h.kept earlier hearlier) hprefix
    exact ⟨htools, Or.inl ⟨hrole, earlier, hearlier, (h.system earlier hearlier).trans hrole.symm, hcontent⟩⟩

end

/-- The runs of a list that continues the run `all`. -/
def runsFrom (all msgs : List OpenAIMessage) : List (List OpenAIMessage) := (systemRuns msgs).modifyHead (all ++ ·)

theorem runsFrom_system {all msgs : List OpenAIMessage} {msg : OpenAIMessage} (hrole : msg.role = Role.system) :
    runsFrom all (msg :: msgs) = runsFrom (all ++ [msg]) msgs := by
  unfold runsFrom systemRuns
  rw [List.splitOnP_cons_eq_if_modifyHead, if_neg (by simp [hrole]), List.modifyHead_modifyHead]
  congr 1
  funext run
  simp

theorem runsFrom_other {all msgs : List OpenAIMessage} {msg : OpenAIMessage} (hrole : msg.role ≠ Role.system) :
    runsFrom all (msg :: msgs) = all :: runsFrom [] msgs := by
  unfold runsFrom systemRuns
  rw [List.splitOnP_cons_eq_if_modifyHead, if_pos (by simp [hrole])]
  have hid : ∀ runs : List (List OpenAIMessage), runs.modifyHead ([] ++ ·) = runs := by
    intro runs
    cases runs <;> rfl
  rw [hid, List.modifyHead_cons, List.append_nil]

/-- A list goes on with the run before it. -/
theorem exists_runsFrom (all msgs : List OpenAIMessage) : ∃ more, all ++ more ∈ runsFrom all msgs := by
  unfold runsFrom systemRuns
  cases h : msgs.splitOnP fun msg => msg.role ≠ Role.system with
  | nil => exact absurd h (List.splitOnP_ne_nil _ _)
  | cons run runs => exact ⟨run, by simp⟩

/-! ### Only duplicates -/

section

variable {all run : List OpenAIMessage} {seenPrefixes : List Text} {last : Option OpenAIMessage} {msg : OpenAIMessage}

/-- A message that is not a system message is deleted only if it repeats the last one. -/
theorem redundant_of_deleted (h : (redundantStep last msg).2 = false) :
    (redundantStep last msg).1 = last ∧ messageHasTools msg = false ∧
      ∃ earlier, last = some earlier ∧ SameMessage earlier msg := by
  unfold redundantStep at h ⊢
  split_ifs at h ⊢ with hany
  obtain ⟨prev, rfl, hprev⟩ := (Option.any_eq_true _ _).mp hany
  obtain ⟨htools, hsame⟩ := sameMessage_of_redundant hprev
  exact ⟨rfl, htools, prev, rfl, hsame⟩

theorem last_of_kept (h : (redundantStep last msg).2 = true) : (redundantStep last msg).1 = some msg := by
  unfold redundantStep at h ⊢
  split_ifs at h ⊢ with hany
  rfl

theorem Remembers.pairwise_of_new (h : Remembers all run seenPrefixes last) (hall : all.Pairwise PrefixTells)
    (hnew : systemPrefix msg ∉ seenPrefixes) : (all ++ [msg]).Pairwise PrefixTells := by
  rw [List.pairwise_append]
  refine ⟨hall, List.pairwise_singleton _ _, ?_⟩
  intro earlier hearlier later hlater hprefix
  rw [List.mem_singleton] at hlater
  subst hlater
  obtain ⟨first, hfirst, hfirstPrefix, -⟩ := h.covered earlier hearlier
  refine absurd ?_ hnew
  rw [h.seen, ← hprefix, ← hfirstPrefix]
  exact List.mem_map_of_mem hfirst

/-- From any point of the loops on, only duplicates are deleted if and only if the beginnings tell the messages of each
run apart. -/
theorem onlyDuplicates_sift (msgs : List OpenAIMessage) (h : Remembers all run seenPrefixes last)
    (hall : all.Pairwise PrefixTells) :
    OnlyDuplicates run last (sift (both dedupStep redundantStep) (seenPrefixes, last) msgs) ↔
      ∀ r ∈ runsFrom all msgs, r.Pairwise PrefixTells := by
  induction msgs generalizing all run seenPrefixes last with
  | nil => simpa [sift, OnlyDuplicates, runsFrom, systemRuns] using hall
  | cons msg msgs ih =>
    by_cases hrole : msg.role = Role.system
    · rw [runsFrom_system hrole]
      by_cases hseen : systemPrefix msg ∈ seenPrefixes
      · have hstep : both dedupStep redundantStep (seenPrefixes, last) msg = ((seenPrefixes, last), false) := by
          simp [both, dedupStep, hrole, hseen]
        rw [sift, hstep, OnlyDuplicates, if_pos hrole, h.deletes_iff hseen hrole]
        constructor
        · rintro ⟨htells, hrest⟩
          have hearlier := hseen
          rw [h.seen, List.mem_map] at hearlier
          obtain ⟨earlier, hmem, hprefix⟩ := hearlier
          have hsame := (htells earlier (h.kept earlier hmem) hprefix).1
          refine (ih (h.skip ⟨earlier, hmem, hprefix, hsame⟩) ?_).mp hrest
          rw [List.pairwise_append]
          refine ⟨hall, List.pairwise_singleton _ _, ?_⟩
          intro earlier hearlier later hlater
          rw [List.mem_singleton.mp hlater]
          exact htells earlier hearlier
        · intro hruns
          obtain ⟨more, hmore⟩ := exists_runsFrom (all ++ [msg]) msgs
          have hpair : (all ++ [msg]).Pairwise PrefixTells := (List.pairwise_append.mp (hruns _ hmore)).1
          have htells : ∀ earlier ∈ all, PrefixTells earlier msg := fun earlier hearlier =>
            (List.pairwise_append.mp hpair).2.2 earlier hearlier msg (List.mem_singleton_self msg)
          have hearlier := hseen
          rw [h.seen, List.mem_map] at hearlier
          obtain ⟨earlier, hmem, hprefix⟩ := hearlier
          have hsame := (htells earlier (h.kept earlier hmem) hprefix).1
          exact ⟨htells, (ih (h.skip ⟨earlier, hmem, hprefix, hsame⟩) hpair).mpr hruns⟩
      · have hstep : both dedupStep redundantStep (seenPrefixes, last) msg =
            ((seenPrefixes ++ [systemPrefix msg], some msg), true) := by
          simp [both, dedupStep, hrole, hseen, h.not_redundant hrole hseen]
        rw [sift, hstep, OnlyDuplicates, if_pos hrole]
        exact ih (h.add hrole hseen) (h.pairwise_of_new hall hseen)
    · rw [runsFrom_other hrole, List.forall_mem_cons, and_iff_right hall]
      have hstep : both dedupStep redundantStep (seenPrefixes, last) msg =
          (([], (redundantStep last msg).1), (redundantStep last msg).2) := by
        simp [both, dedupStep, hrole]
      rw [sift, hstep]
      cases hkeep : (redundantStep last msg).2 with
      | false =>
        obtain ⟨hlast, htools, earlier, hearlier, hsame⟩ := redundant_of_deleted hkeep
        rw [hlast, OnlyDuplicates, if_neg hrole, and_iff_right ⟨htools, Or.inr ⟨earlier, hearlier, hsame⟩⟩]
        refine ih (remembers_other ?_) List.Pairwise.nil
        intro m hm
        rw [hearlier] at hm
        cases hm
        exact hsame.1 ▸ hrole
      | true =>
        rw [last_of_kept hkeep, OnlyDuplicates, if_neg hrole]
        refine ih (remembers_other ?_) List.Pairwise.nil
        intro m hm
        cases hm
        exact hrole

end

/-- Lite compression deletes only duplicates if and only if in every run of system messages, as they are after the
passes over the texts, those that begin alike have the same content and the later ones have no tools. -/
theorem losslessLite_iff (msgs : List OpenAIMessage) :
    LosslessLite msgs ↔ ∀ run ∈ systemRuns (normalized msgs), run.Pairwise PrefixTells := by
  have hruns : runsFrom [] (normalized msgs) = systemRuns (normalized msgs) := by
    unfold runsFrom
    cases systemRuns (normalized msgs) <;> rfl
  rw [← hruns, ← onlyDuplicates_sift (normalized msgs) remembers_start List.Pairwise.nil, ← liteMarks_eq]
  refine ⟨fun h => h.onlyDuplicates, fun h => ⟨onlyContent_normalized msgs, applyLite_eq msgs, ?_, h⟩⟩
  rw [liteMarks_eq]
  exact map_fst_sift _ _

/-- Two system prompts in parts. -/
def twoPrompts : List OpenAIMessage :=
  [⟨Role.system, some (array [string ['a']]), none, none, none, []⟩,
    ⟨Role.system, some (array [string ['b']]), none, none, none, []⟩]

/-- The second prompt is deleted. -/
theorem not_losslessLite_twoPrompts : ¬ LosslessLite twoPrompts := by
  intro h
  have hmarks := h.onlyDuplicates
  rw [liteMarks_eq, onlyDuplicates_sift _ remembers_start List.Pairwise.nil] at hmarks
  have hpair : twoPrompts.Pairwise PrefixTells := hmarks twoPrompts (List.mem_singleton.mpr rfl)
  have htells := (List.pairwise_cons.mp hpair).1 _ (List.mem_singleton.mpr rfl)
  simpa using (htells rfl).1

end OpenProxy.Compression
