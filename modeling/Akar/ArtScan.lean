import Akar.ArtRefinement

namespace Akar

open List Function RangeQuery

theorem satisfiesLower_iff (key lower : List UInt8) (inclusive : Bool) :
    satisfiesLower key lower inclusive = true ↔ lower < key ∨ inclusive = true ∧ lower = key := by
  induction key generalizing lower with
  | nil => cases lower <;> simp [satisfiesLower]
  | cons a key ih =>
    cases lower with
    | nil => simp [satisfiesLower]
    | cons b =>
      rw [satisfiesLower, cons_lt_cons_iff]
      rcases Std.lt_trichotomy a b with h | rfl | h
      · have hba := UInt8.lt_asymm h
        have hne : b ≠ a := (UInt8.ne_of_lt h).symm
        simp [h, hba, hne]
      · simp [ih, Std.lt_irrefl]
      · have hab := UInt8.lt_asymm h
        simp [h, hab]

theorem satisfiesUpper_iff (key upper : List UInt8) (inclusive : Bool) :
    satisfiesUpper key upper inclusive = true ↔ key < upper ∨ inclusive = true ∧ key = upper := by
  induction key generalizing upper with
  | nil => cases upper <;> simp [satisfiesUpper]
  | cons a key ih =>
    cases upper with
    | nil => simp [satisfiesUpper]
    | cons b =>
      rw [satisfiesUpper, cons_lt_cons_iff]
      rcases Std.lt_trichotomy a b with h | rfl | h
      · have hba := UInt8.lt_asymm h
        simp [h, hba]
      · simp [ih, Std.lt_irrefl]
      · have hab := UInt8.lt_asymm h
        have hne : a ≠ b := (UInt8.ne_of_lt h).symm
        simp [h, hab, hne]

theorem satisfiesUpper_of_append {key rest upper : List UInt8} {inclusive : Bool}
    (h : satisfiesUpper (key ++ rest) upper inclusive = true) :
      satisfiesUpper key upper inclusive = true := by
  induction key generalizing upper with
  | nil =>
    cases upper with
    | cons => rfl
    | nil =>
      cases rest with
      | nil => exact h
      | cons => cases h
  | cons a key ih =>
    cases upper with
    | nil => cases h
    | cons =>
      rw [cons_append, satisfiesUpper] at h
      rw [satisfiesUpper]
      split
      next hba => rw [if_pos hba] at h; cases h
      next hba =>
        rw [if_neg hba] at h
        split
        next => rfl
        next hab =>
          rw [if_neg hab] at h
          exact ih h

namespace RangeQuery

def inRange (q : RangeQuery) (key : List UInt8) : Bool :=
  q.satisfiesLowerBound key && q.satisfiesUpperBound key

variable {q : RangeQuery}

theorem satisfiesUpperBound_of_append {key rest : List UInt8}
    (h : q.satisfiesUpperBound (key ++ rest) = true) : q.satisfiesUpperBound key = true := by
  unfold satisfiesUpperBound at h ⊢
  split
  next => rfl
  next upper hupper =>
    rw [hupper] at h
    exact satisfiesUpper_of_append h

variable {results : List Nat}

theorem push_eq (q : RangeQuery) (offsets : List Nat) (h : results.length ≤ q.maxResults) :
    q.push offsets results = (results ++ offsets).take q.maxResults := by
  unfold push
  induction offsets generalizing results with
  | nil =>
    rw [append_nil, take_of_length_le h]
    rfl
  | cons offset offsets ih =>
    rw [foldl_cons]
    by_cases hfull : q.maxResults ≤ results.length
    · have hlen : results.length = q.maxResults := by omega
      rw [if_pos hfull, ih h, ← hlen, take_left, take_left]
    · rw [if_neg hfull, ih (by rw [length_append, length_singleton]; omega), append_assoc]
      rfl

theorem take_append_of_full (h : results.length ≤ q.maxResults)
    (hfull : q.maxResults ≤ results.length) (more : List Nat) :
      (results ++ more).take q.maxResults = results := by
  have hlen : results.length = q.maxResults := by omega
  rw [← hlen, take_left]

theorem take_take_append (q : RangeQuery) (l more : List Nat) :
    (l.take q.maxResults ++ more).take q.maxResults = (l ++ more).take q.maxResults := by
  rw [take_append, take_append, take_take, Nat.min_self, length_take]
  congr 2
  omega

end RangeQuery

namespace ArtNode

variable {node child : ArtNode} {b : UInt8} {key k : List UInt8}

def entries (node : ArtNode) : List (List UInt8 × Nat) :=
  node.allOffsets.map (fun offset => (node.path, offset)) ++
    node.children.ordered.attach.flatMap fun entry =>
      (entries entry.1.2).map fun e => (node.path ++ entry.1.1 :: e.1, e.2)
termination_by node
decreasing_by exact sizeOf_ordered entry.2

def under (node : ArtNode) (entry : UInt8 × ArtNode) : List (List UInt8 × Nat) :=
  entry.2.entries.map fun e => (node.path ++ entry.1 :: e.1, e.2)

theorem entries_eq (h : node.Valid) :
    node.entries = node.allOffsets.map (fun offset => (node.path, offset)) ++
      (spread node.children.get).flatMap node.under := by
  have hattach : (node.children.ordered.attach.flatMap fun entry => node.under entry.1) =
      node.children.ordered.flatMap node.under := by
    rw [flatMap_def, attach_map_val, ← flatMap_def]
  rw [entries, ← Children.ordered_eq h.children, ← hattach]
  rfl

theorem filter_entries (h : node.Valid) (k : List UInt8) :
    node.entries.filter (·.1 = k) = (node.offsetsAt k).map fun offset => (k, offset) := by
  induction node using tree_induction generalizing k with
  | step node ih =>
    rw [entries_eq h, filter_append, List.filter_flatMap]
    have hown : (node.allOffsets.map fun offset => (node.path, offset)).filter (·.1 = k) =
        if k = node.path then node.allOffsets.map fun offset => (k, offset) else [] := by
      split
      next heq => simp [heq]
      next hne =>
        have hne' : ¬node.path = k := fun heq => hne heq.symm
        simp [hne']
    -- only the byte that follows the path in `k` leads to entries of `k`
    have hunder (entry : UInt8 × ArtNode) (hnot : ∀ r, k ≠ node.path ++ entry.1 :: r) :
        (node.under entry).filter (·.1 = k) = [] := by
      apply filter_eq_nil_iff.mpr
      intro e he
      obtain ⟨e', _, rfl⟩ := mem_map.mp he
      simpa using fun heq => hnot e'.1 heq.symm
    have hnone (hnot : ∀ byte r, k ≠ node.path ++ byte :: r) :
        (spread node.children.get).flatMap (fun entry => (node.under entry).filter (·.1 = k)) = [] := by
      apply flatMap_eq_nil_iff.mpr
      intro entry _
      exact hunder entry (hnot entry.1)
    rw [hown]
    cases along node.path k with
    | ends =>
      rw [hnone (by simp), if_pos rfl, append_nil, offsetsAt_path]
    | past byte rest =>
      have hne : node.path ++ byte :: rest ≠ node.path := by simp
      rw [if_neg hne, nil_append, offsetsAt_past, flatMap_filter_of_nil (p := (·.1 = byte))]
      · rw [filter_eq_lookup (nodup_spread _), lookup_spread]
        cases hget : node.children.get byte with
        | none => rfl
        | some child =>
          have hchild := ih byte child hget (h.descend hget) rest
          simp only [Option.map_some, Option.toList_some, flatMap_cons, flatMap_nil, append_nil,
            Option.getD_some, under]
          rw [filter_map]
          have hsame : ((fun e : List UInt8 × Nat => decide (e.1 = node.path ++ byte :: rest)) ∘
              fun e : List UInt8 × Nat => (node.path ++ byte :: e.1, e.2)) = fun e =>
                decide (e.1 = rest) := by
            funext e
            simp
          rw [hsame, hchild, map_map]
          rfl
      · intro entry _ hentry
        apply hunder
        intro r heq
        have hbyte : byte = entry.1 := by simpa using congrArg List.head? (append_cancel_left heq)
        exact absurd hbyte.symm (of_decide_eq_false hentry)
    | off hnot =>
      have hne : k ≠ node.path := fun heq => hnot (heq ▸ prefix_refl _)
      rw [hnone (fun b r heq => hnot (heq ▸ prefix_append _ _)), if_neg hne, offsetsAt_of_not hnot]
      rfl

theorem pairwise_entries (h : node.Valid) : node.entries.Pairwise fun a b => a.1 ≤ b.1 := by
  induction node using tree_induction with
  | step node ih =>
    rw [entries_eq h, pairwise_append, pairwise_flatMap]
    refine ⟨?_, ⟨fun entry hentry => ?_, ?_⟩, ?_⟩
    · apply pairwise_map.mpr
      exact pairwise_of_forall fun _ _ => Std.le_refl _
    · have hget := mem_spread.mp hentry
      apply pairwise_map.mpr
      refine (ih entry.1 entry.2 hget (h.descend hget)).imp fun hle => ?_
      exact append_left_le (cons_le_cons_iff.mpr (.inr ⟨rfl, hle⟩))
    · refine (pairwise_spread _).imp fun {x y} hlt e he e' he' => ?_
      obtain ⟨_, _, rfl⟩ := mem_map.mp he
      obtain ⟨_, _, rfl⟩ := mem_map.mp he'
      exact append_left_le (cons_le_cons_iff.mpr (.inl hlt))
    · intro e he e' he'
      obtain ⟨_, _, rfl⟩ := mem_map.mp he
      obtain ⟨entry, _, he'⟩ := mem_flatMap.mp he'
      obtain ⟨_, _, rfl⟩ := mem_map.mp he'
      exact le_append_left

def matching (q : RangeQuery) (key : List UInt8) (entries : List (List UInt8 × Nat)) : List Nat :=
  (entries.filter fun e => q.inRange (key ++ e.1)).map (·.2)

theorem matching_append (q : RangeQuery) (key : List UInt8) (l m : List (List UInt8 × Nat)) :
    matching q key (l ++ m) = matching q key l ++ matching q key m := by
  rw [matching, filter_append, map_append]
  rfl

theorem matching_under (q : RangeQuery) (key : List UInt8) (entry : UInt8 × ArtNode) :
    matching q key (node.under entry) = matching q (key ++ node.path ++ [entry.1]) entry.2.entries := by
  unfold matching under
  rw [filter_map, map_map]
  simp [comp_def]

theorem matching_own (q : RangeQuery) (node : ArtNode) (key : List UInt8) :
    matching q key (node.allOffsets.map fun offset => (node.path, offset)) =
      if q.inRange (key ++ node.path) then node.allOffsets else [] := by
  unfold matching
  rw [filter_map, map_map]
  split
  next h => simp [comp_def, h]
  next h => simp [comp_def, h]

def visit (q : RangeQuery) (here : List UInt8) (results : List Nat) (entry : UInt8 × ArtNode) :
    List Nat :=
  if q.maxResults ≤ results.length then results
  else if q.satisfiesUpperBound (here ++ [entry.1]) then collectRange q entry.2 (here ++ [entry.1])
    results
  else results

theorem collectRange_visits (q : RangeQuery) (node : ArtNode) (key : List UInt8) (results : List Nat) :
    node.collectRange q key results = if q.maxResults ≤ results.length then results
      else
        node.children.ordered.foldl (visit q (key ++ node.path))
          (if node.hasOffsets && q.inRange (key ++ node.path) then q.push node.allOffsets
            results else results) := by
  rw [collectRange, ← foldl_attach (f := visit q (key ++ node.path)), RangeQuery.inRange,
    ← Bool.and_assoc]
  rfl

variable {results : List Nat}

theorem visit_eq (q : RangeQuery) {entry : UInt8 × ArtNode} (hlen : results.length ≤ q.maxResults)
    (h : ∀ {results : List Nat}, results.length ≤ q.maxResults →
      entry.2.collectRange q (key ++ node.path ++ [entry.1]) results =
        (results ++ matching q (key ++ node.path ++ [entry.1]) entry.2.entries).take q.maxResults) :
    visit q (key ++ node.path) results entry = (results ++ matching q key (node.under entry)).take
      q.maxResults := by
  rw [visit, matching_under]
  split
  next hfull => exact (take_append_of_full hlen hfull _).symm
  next =>
    split
    next => exact h hlen
    next hupper =>
      have hnil : matching q (key ++ node.path ++ [entry.1]) entry.2.entries = [] := by
        unfold matching
        rw [map_eq_nil_iff, filter_eq_nil_iff]
        intro e _ hin
        have hin' := Bool.and_eq_true_iff.mp hin
        exact hupper (satisfiesUpperBound_of_append hin'.2)
      rw [hnil, append_nil, take_of_length_le hlen]

theorem foldl_visit (q : RangeQuery) {l : List (UInt8 × ArtNode)} (hlen : results.length ≤ q.maxResults)
    (h : ∀ entry ∈ l, ∀ {results : List Nat}, results.length ≤ q.maxResults →
      visit q (key ++ node.path) results entry =
        (results ++ matching q key (node.under entry)).take q.maxResults) :
    l.foldl (visit q (key ++ node.path)) results =
      (results ++ matching q key (l.flatMap node.under)).take q.maxResults := by
  induction l generalizing results with
  | nil =>
    rw [foldl_nil, flatMap_nil, matching, filter_nil, map_nil, append_nil, take_of_length_le hlen]
  | cons entry l ih =>
    have hrest := ih (length_take_le _ (results ++ matching q key (node.under entry)))
      (forall_mem_cons.mp h).2
    rw [foldl_cons, h entry mem_cons_self hlen, hrest, flatMap_cons, matching_append,
      take_take_append, append_assoc]

theorem push_own (q : RangeQuery) (node : ArtNode) (key : List UInt8)
    (hlen : results.length ≤ q.maxResults) :
    (if node.hasOffsets && q.inRange (key ++ node.path) then q.push node.allOffsets
      results else results) =
      (results ++ matching q key (node.allOffsets.map fun offset => (node.path, offset))).take
        q.maxResults := by
  rw [matching_own]
  cases hin : q.inRange (key ++ node.path) with
  | false => simp [take_of_length_le hlen]
  | true =>
    rw [Bool.and_true, if_pos rfl]
    split
    next => exact q.push_eq node.allOffsets hlen
    next hno =>
      have hnil : node.allOffsets = [] := by simpa [hasOffsets, allOffsets] using hno
      rw [hnil, append_nil, take_of_length_le hlen]

theorem collectRange_eq (q : RangeQuery) (h : node.Valid) (key : List UInt8)
    (hlen : results.length ≤ q.maxResults) :
    node.collectRange q key results = (results ++ matching q key node.entries).take q.maxResults := by
  induction node using tree_induction generalizing key results with
  | step node ih =>
    rw [collectRange_visits]
    split
    next hfull => exact (take_append_of_full hlen hfull _).symm
    next =>
      have hvisits : ∀ entry ∈ spread node.children.get, ∀ {results : List Nat}, results.length ≤
          q.maxResults →
          visit q (key ++ node.path) results entry =
            (results ++ matching q key (node.under entry)).take q.maxResults := by
        intro entry hentry results hlen
        have hget := mem_spread.mp hentry
        exact visit_eq q hlen fun hlen' => ih entry.1 entry.2 hget (h.descend hget) _ hlen'
      rw [push_own q node key hlen, Children.ordered_eq h.children,
        foldl_visit q (length_take_le _ _) hvisits,
        take_take_append, append_assoc, ← matching_append, ← entries_eq h]

end ArtNode

end Akar
