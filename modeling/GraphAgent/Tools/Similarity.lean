import GraphAgent.Library.Blocks
import GraphAgent.Tools.WebSearch

/-!
# Queries that are alike

What the deduplication compares and records: normalising a query a second time changes
nothing, the similarity of two queries is symmetric, and a query of a call is kept exactly if
it is below the threshold to everything recorded before it.
-/

namespace GraphAgent

/-- What `str.lower` and the `\w` of `re` are documented to do: a text of characters that
`lower` has returned, and of spaces, is lower case, and a space is no part of a word. -/
structure Python.Lawful (py : Python) : Prop where
  lower_of_lowered : ∀ text : String,
    (∀ c ∈ text.toList, c = ' ' ∨ ∃ source, c ∈ (py.lower source).toList) → py.lower text = text
  isWord_space : py.isWord ' ' = false

section Normalised

variable (py : Python)

/-- `_WORD.findall(text.lower())` on the characters. -/
def queryWords (text : String) : List (List Char) :=
  Blocks.groups (fun c => !py.isWord c) (py.lower text).toList

theorem toList_normalizeQuery (text : String) :
    (normalizeQuery py text).toList = [' '].intercalate (queryWords py text) := by
  have hwords : normalizeQuery py text =
      " ".intercalate ((queryWords py text).map String.ofList) := rfl
  rw [hwords, String.toList_intercalate, List.map_map]
  have hid : String.toList ∘ String.ofList = id := funext fun _ => String.toList_ofList
  rw [hid, List.map_id]
  rfl

variable {py}

/-- A normalised query is its own lower case. -/
theorem lower_normalizeQuery (hpy : py.Lawful) (text : String) :
    py.lower (normalizeQuery py text) = normalizeQuery py text := by
  apply hpy.lower_of_lowered
  intro c hc
  rw [toList_normalizeQuery] at hc
  rcases Blocks.mem_intercalate hc with rfl | ⟨word, hword, hmem⟩
  · exact Or.inl rfl
  · exact Or.inr ⟨text, ((Blocks.mem_of_mem_groups hword).2 c hmem).1⟩

theorem normalizeQuery_normalizeQuery (hpy : py.Lawful) (text : String) :
    normalizeQuery py (normalizeQuery py text) = normalizeQuery py text := by
  have hwords : queryWords py (normalizeQuery py text) = queryWords py text := by
    unfold queryWords
    rw [lower_normalizeQuery hpy, toList_normalizeQuery]
    refine Blocks.groups_intercalate (by simp [hpy.isWord_space]) fun part hpart => ?_
    obtain ⟨hne, hopen⟩ := Blocks.mem_of_mem_groups hpart
    exact ⟨hne, fun c hc => (hopen c hc).2⟩
  rw [← String.toList_inj, toList_normalizeQuery, hwords, ← toList_normalizeQuery]

/-- A query that has been recorded is compared as it was when it was read. -/
theorem querySimilarity_normalizeQuery (hpy : py.Lawful) (a b : String) :
    querySimilarity py (normalizeQuery py a) b = querySimilarity py a b := by
  have htokens : tokens py (normalizeQuery py a) = tokens py a := by
    unfold tokens
    rw [normalizeQuery_normalizeQuery hpy]
  unfold querySimilarity
  rw [htokens]

variable (py)

theorem querySimilarity_comm (a b : String) :
    querySimilarity py a b = querySimilarity py b a := by
  unfold querySimilarity
  simp only [Finset.inter_comm (tokens py a), Finset.union_comm (tokens py a),
    Nat.min_comm (tokens py a).card, Or.comm (a := (tokens py a).card < 2)]

end Normalised

section Kept

variable (py : Python) (similarity : ℚ)

/-- The queries that the deduplication keeps, where `seen` is recorded. -/
def keptQueries (seen : List String) : List String → List String
  | [] => []
  | query :: rest =>
      if isDuplicate py similarity query seen then keptQueries seen rest
      else query :: keptQueries (seen ++ [normalizeQuery py query]) rest

/-- The loop of the deduplication keeps these queries, and records what it keeps. -/
theorem foldl_read_eq (queries : List String) (scan : DedupScan) :
    (queries.foldl (DedupScan.read py similarity) scan).kept =
        scan.kept ++ keptQueries py similarity scan.recorded queries ∧
      (queries.foldl (DedupScan.read py similarity) scan).recorded =
        scan.recorded ++
          (keptQueries py similarity scan.recorded queries).map (normalizeQuery py) := by
  induction queries generalizing scan with
  | nil => simp [keptQueries]
  | cons query rest ih =>
      obtain ⟨hkept, hrecorded⟩ := ih (scan.read py similarity query)
      rw [List.foldl_cons, hkept, hrecorded]
      cases hduplicate : isDuplicate py similarity query scan.recorded <;>
        simp [DedupScan.read, keptQueries, hduplicate]

variable {py similarity} {seen queries : List String}

theorem keptQueries_sublist : (keptQueries py similarity seen queries).Sublist queries := by
  induction queries generalizing seen with
  | nil => exact List.Sublist.slnil
  | cons query rest ih =>
      unfold keptQueries
      split
      · exact ih.cons query
      · exact ih.cons_cons query

theorem keptQueries_append (front back : List String) :
    keptQueries py similarity seen (front ++ back) =
      keptQueries py similarity seen front ++
        keptQueries py similarity
          (seen ++ (keptQueries py similarity seen front).map (normalizeQuery py)) back := by
  induction front generalizing seen with
  | nil => simp [keptQueries]
  | cons query rest ih =>
      rw [List.cons_append, keptQueries, keptQueries]
      split
      · exact ih
      · simp [ih]

/-- What has been taken out of a list without repetitions is found again by its members. -/
theorem filter_mem_of_sublist {part all : List String} (h : part.Sublist all) (hall : all.Nodup) :
    all.filter (fun item => item ∈ part) = part := by
  have hself : part.filter (fun item => item ∈ part) = part := by
    rw [List.filter_eq_self]
    intro item hitem
    exact decide_eq_true hitem
  have hsub := h.filter fun item => decide (item ∈ part)
  rw [hself] at hsub
  have hsubset : all.filter (fun item => item ∈ part) ⊆ part := by
    intro item hitem
    exact of_decide_eq_true (List.mem_filter.mp hitem).2
  exact (hsub.eq_of_length_le ((hall.filter _).subperm hsubset).length_le).symm

/-- A query is kept exactly if it is below the threshold to everything recorded before it. -/
theorem mem_keptQueries_iff {front back kept : List String} {query : String}
    (h : (front ++ query :: back).Nodup)
    (hkept : keptQueries py similarity seen (front ++ query :: back) = kept) :
    query ∈ kept ↔
      ∀ previous ∈ seen ++ (front.filter fun other => other ∈ kept).map (normalizeQuery py),
        querySimilarity py query previous < similarity := by
  subst hkept
  obtain ⟨hfront, hback, hapart⟩ := List.nodup_append.mp h
  have hsplit := @keptQueries_append py similarity seen front (query :: back)
  have hfilter : front.filter (fun other =>
      other ∈ keptQueries py similarity seen (front ++ query :: back)) =
      keptQueries py similarity seen front := by
    refine Eq.trans (List.filter_congr fun other hother => ?_)
      (filter_mem_of_sublist keptQueries_sublist hfront)
    have hlater : other ∉ keptQueries py similarity
        (seen ++ (keptQueries py similarity seen front).map (normalizeQuery py)) (query :: back) :=
      fun hmem => hapart other hother other (keptQueries_sublist.subset hmem) rfl
    rw [hsplit, decide_eq_decide, List.mem_append, or_iff_left hlater]
  rw [hfilter, hsplit, List.mem_append, keptQueries]
  have hearlier : query ∉ keptQueries py similarity seen front := fun hmem =>
    hapart query (keptQueries_sublist.subset hmem) query List.mem_cons_self rfl
  have hlater : ∀ seen, query ∉ keptQueries py similarity seen back := fun seen hmem =>
    (List.nodup_cons.mp hback).1 (keptQueries_sublist.subset hmem)
  rw [or_iff_right hearlier]
  split
  case isTrue hduplicate =>
    obtain ⟨previous, hprevious, hsimilar⟩ := (isDuplicate_iff py similarity query _).mp hduplicate
    refine iff_of_false (hlater _) fun hall => ?_
    exact absurd hsimilar (not_le.mpr (hall previous hprevious))
  case isFalse hnew =>
    refine iff_of_true List.mem_cons_self fun previous hprevious => ?_
    rw [isDuplicate_iff] at hnew
    exact not_le.mp fun hsimilar => hnew ⟨previous, hprevious, hsimilar⟩

/-- What is recorded stays below the threshold to each other. -/
theorem pairwise_recorded (hpy : py.Lawful)
    (h : seen.Pairwise fun a b => querySimilarity py a b < similarity) :
    (seen ++ (keptQueries py similarity seen queries).map (normalizeQuery py)).Pairwise
      fun a b => querySimilarity py a b < similarity := by
  induction queries generalizing seen with
  | nil => simpa [keptQueries] using h
  | cons query rest ih =>
      unfold keptQueries
      split
      case isTrue => exact ih h
      case isFalse hnew =>
        rw [isDuplicate_iff] at hnew
        have hseen : (seen ++ [normalizeQuery py query]).Pairwise
            fun a b => querySimilarity py a b < similarity := by
          rw [List.pairwise_append]
          refine ⟨h, List.pairwise_singleton _ _, fun previous hprevious last hlast => ?_⟩
          rw [List.mem_singleton.mp hlast, querySimilarity_comm,
            querySimilarity_normalizeQuery hpy]
          exact not_le.mp fun hsimilar => hnew ⟨previous, hprevious, hsimilar⟩
        have hrest := ih hseen
        rwa [List.append_assoc] at hrest

end Kept

section Extraction

variable (py : Python)

/-- `WebSearchTool._queries` before its check and its cap. -/
def toolQueries (args : Args) : List String :=
  let queries : List String :=
    match args.get? "query" with
    | some (.str single) => if Text.strip single = "" then [] else [Text.strip single]
    | _ => []
  let queries :=
    match args.get? "queries" with
    | some (.arr batch) =>
        queries ++ (batch.map fun item => Text.strip (py.str item)).filter fun query : String =>
          !query.isEmpty
    | _ => queries
  queries.eraseDups

/-- The tool and the deduplication find the same queries. -/
theorem toolQueries_eq (args : Args) : toolQueries py args = argQueries py args := by
  unfold toolQueries argQueries
  cases hbatch : args.get? "queries" with
  | none => exact congrArg List.eraseDups (List.append_nil _).symm
  | some value =>
      cases value with
      | arr batch => rfl
      | _ => exact congrArg List.eraseDups (List.append_nil _).symm

theorem queries_eq_toolQueries (tool : WebSearchTool) (args : Args) :
    tool.queries py args =
      if (toolQueries py args).isEmpty then .error "web_search: query must not be empty"
      else .ok (sliceTo (toolQueries py args) tool.maxQueriesPerCall) := by
  rw [toolQueries_eq]
  rfl

/-- The tool finds exactly the queries that the deduplication has kept. -/
theorem toolQueries_withKeptQueries {similarity : ℚ} {seen : List String} {args : Args}
    (hsome : keptQueries py similarity seen (argQueries py args) ≠ []) :
    toolQueries py (withKeptQueries args (keptQueries py similarity seen (argQueries py args))) =
      keptQueries py similarity seen (argQueries py args) := by
  rw [toolQueries_eq]
  exact argQueries_withKeptQueries py keptQueries_sublist hsome

end Extraction

end GraphAgent
