import Mathlib.Data.List.Forall2
import Mathlib.Data.List.Induction
import Mathlib.Data.List.Nodup
import Constituency.Chart.Candidate
import Constituency.Proofs.Score.Ranking

/-!
# The first of the best

A cell that keeps the better of two candidates for a symbol holds in the end, for
each symbol that was offered, the first of the best candidates for it. The symbols
stand in the order of their first offers, whichever offer is kept.
-/

namespace Constituency.Candidate

variable {S : Type}

/-! ## The candidate for a symbol -/

/-- Among candidates with distinct symbols one is alone with its symbol. -/
theorem withSymbol_eq_singleton {cell : List (Candidate S)} (distinct : (cell.map symbol).Nodup)
    {c : Candidate S} (h : c ∈ cell) : withSymbol c.symbol cell = [c] := by
  induction cell with
  | nil => exact absurd h List.not_mem_nil
  | cons d rest ih =>
    rw [List.map_cons, List.nodup_cons] at distinct
    rcases List.mem_cons.mp h with rfl | later
    · have others : ∀ e ∈ rest, ¬ (e.symbol == c.symbol) = true :=
        fun e he same => distinct.1 (beq_iff_eq.mp same ▸ List.mem_map_of_mem he)
      rw [withSymbol, List.filter_cons, if_pos (beq_self_eq_true c.symbol),
        List.filter_eq_nil_iff.mpr others]
    · have other : ¬ (d.symbol == c.symbol) = true :=
        fun same => distinct.1 (beq_iff_eq.mp same ▸ List.mem_map_of_mem later)
      rw [withSymbol, List.filter_cons, if_neg other]
      exact ih distinct.2 later

/-- A symbol that no candidate has selects none. -/
theorem withSymbol_eq_nil {cell : List (Candidate S)} {x : Symbol} (h : x ∉ cell.map symbol) :
    withSymbol x cell = [] :=
  List.filter_eq_nil_iff.mpr fun _ hc same => h (beq_iff_eq.mp same ▸ List.mem_map_of_mem hc)

variable [Score S]

/-! ## One offer -/

/-- What is kept stems from the cell or is the new candidate. -/
theorem mem_keepBetter {cell : List (Candidate S)} {new c : Candidate S}
    (h : c ∈ keepBetter cell new) : c ∈ cell ∨ c = new := by
  induction cell with
  | nil => exact .inr (List.mem_singleton.mp h)
  | cons old rest ih =>
    rw [keepBetter] at h
    split at h
    · rcases List.mem_cons.mp h with rfl | h
      · split
        · exact .inr rfl
        · exact .inl List.mem_cons_self
      · exact .inl (List.mem_cons_of_mem _ h)
    · rcases List.mem_cons.mp h with rfl | h
      · exact .inl List.mem_cons_self
      · exact (ih h).imp_left (List.mem_cons_of_mem _)

/-- The symbols of the cell stay, and that of the new candidate joins them once. -/
theorem map_symbol_keepBetter (cell : List (Candidate S)) (new : Candidate S) :
    (keepBetter cell new).map symbol =
      if new.symbol ∈ cell.map symbol then cell.map symbol
      else cell.map symbol ++ [new.symbol] := by
  induction cell with
  | nil => rfl
  | cons old rest ih =>
    rw [keepBetter]
    by_cases same : old.symbol = new.symbol
    · have kept : (if Score.better new.score old.score then new else old).symbol = old.symbol := by
        split
        · exact same.symm
        · rfl
      rw [if_pos same, List.map_cons, kept, List.map_cons,
        if_pos (List.mem_cons.mpr (.inl same.symm))]
    · have other : (new.symbol ∈ old.symbol :: rest.map symbol) ↔ new.symbol ∈ rest.map symbol := by
        rw [List.mem_cons, or_iff_right (Ne.symm same)]
      rw [if_neg same, List.map_cons, ih, List.map_cons]
      simp only [other]
      split
      · rfl
      · rfl

/-- Keeping the better of two candidates keeps the symbols distinct. -/
theorem nodup_symbol_keepBetter {cell : List (Candidate S)} (h : (cell.map symbol).Nodup)
    (new : Candidate S) : ((keepBetter cell new).map symbol).Nodup := by
  rw [map_symbol_keepBetter]
  split
  · exact h
  · next fresh =>
    rw [List.nodup_append]
    refine ⟨h, List.nodup_singleton _, fun x hx y hy => ?_⟩
    rw [List.mem_singleton] at hy
    rw [hy]
    exact fun heq => fresh (heq ▸ hx)

/-- An old candidate stays if the new one does not beat it, and the new one comes in only if it
beats the old one for its symbol. -/
theorem keepBetter_cases {cell : List (Candidate S)} (distinct : (cell.map symbol).Nodup)
    {new c : Candidate S} (h : c ∈ keepBetter cell new) :
    (c ∈ cell ∧ (new.symbol = c.symbol → Score.better new.score c.score = false)) ∨
      (c = new ∧ ∀ d ∈ cell, d.symbol = new.symbol → Score.better new.score d.score = true) := by
  induction cell with
  | nil => exact .inr ⟨List.mem_singleton.mp h, fun d hd => absurd hd List.not_mem_nil⟩
  | cons old rest ih =>
    rw [List.map_cons, List.nodup_cons] at distinct
    have others : ∀ d ∈ rest, d.symbol ≠ old.symbol :=
      fun d hd same => distinct.1 (same ▸ List.mem_map_of_mem hd)
    rw [keepBetter] at h
    by_cases same : old.symbol = new.symbol
    · rw [if_pos same] at h
      rcases List.mem_cons.mp h with winner | later
      · cases win : Score.better new.score old.score with
        | true =>
          rw [if_pos win] at winner
          refine .inr ⟨winner, fun d hd same' => ?_⟩
          rcases List.mem_cons.mp hd with rfl | hd
          · exact win
          · exact absurd (same'.trans same.symm) (others d hd)
        | false =>
          rw [if_neg (Bool.not_eq_true _ ▸ win)] at winner
          exact .inl ⟨winner ▸ List.mem_cons_self, fun _ => winner ▸ win⟩
      · exact .inl ⟨List.mem_cons_of_mem _ later,
          fun same' => absurd (same'.symm.trans same.symm) (others c later)⟩
    · rw [if_neg same] at h
      rcases List.mem_cons.mp h with rfl | later
      · exact .inl ⟨List.mem_cons_self, fun same' => absurd same'.symm same⟩
      · rcases ih distinct.2 later with ⟨hc, stays⟩ | ⟨rfl, beats⟩
        · exact .inl ⟨List.mem_cons_of_mem _ hc, stays⟩
        · refine .inr ⟨rfl, fun d hd same' => ?_⟩
          rcases List.mem_cons.mp hd with rfl | hd
          · exact absurd same' same
          · exact beats d hd same'

/-! ## A run of offers -/

/-- One more offer is weighed against what the earlier ones left. -/
theorem pruned_concat (offers : List (Candidate S)) (new : Candidate S) :
    pruned (offers ++ [new]) = keepBetter (pruned offers) new := by
  rw [pruned, List.foldl_append, List.foldl_cons, List.foldl_nil, ← pruned]

/-- Of an element at the end only a first occurrence counts. -/
theorem eraseDups_concat {α : Type} [DecidableEq α] (xs : List α) (x : α) :
    (xs ++ [x]).eraseDups = if x ∈ xs then xs.eraseDups else xs.eraseDups ++ [x] := by
  rw [List.eraseDups_append, List.removeAll]
  by_cases known : x ∈ xs
  · rw [if_pos known, List.filter_cons_of_neg (by simp [known]), List.filter_nil,
      List.eraseDups_nil, List.append_nil]
  · rw [if_neg known, List.filter_cons_of_pos (by simp [known]), List.filter_nil]
    rfl

/-- The cell has the symbols that were offered, each once and in the order of the first offers. -/
theorem map_symbol_pruned (offers : List (Candidate S)) :
    (pruned offers).map symbol = (offers.map symbol).eraseDups := by
  induction offers using List.reverseRecOn with
  | nil => rfl
  | append_singleton offers new ih =>
    simp only [pruned_concat, map_symbol_keepBetter, ih, List.map_append, List.map_singleton,
      eraseDups_concat, List.mem_eraseDups]

/-- A cell holds one candidate for each of its symbols. -/
theorem nodup_symbol_pruned (offers : List (Candidate S)) : ((pruned offers).map symbol).Nodup := by
  induction offers using List.reverseRecOn with
  | nil => exact .nil
  | append_singleton offers new ih =>
    rw [pruned_concat]
    exact nodup_symbol_keepBetter ih new

/-- For each symbol that was offered a candidate is kept. -/
theorem exists_mem_pruned {offers : List (Candidate S)} {d : Candidate S} (h : d ∈ offers) :
    ∃ c ∈ pruned offers, c.symbol = d.symbol := by
  have offered : d.symbol ∈ (pruned offers).map symbol := by
    rw [map_symbol_pruned, List.mem_eraseDups]
    exact List.mem_map_of_mem h
  exact List.mem_map.mp offered

/-- A candidate that beats those for its symbol that were offered before it and is beaten by none
that was offered after it. -/
def IsFirstBest (offers : List (Candidate S)) (c : Candidate S) : Prop :=
  ∃ before after, offers = before ++ c :: after ∧
    (∀ d ∈ before, d.symbol = c.symbol → Score.better c.score d.score = true) ∧
    ∀ d ∈ after, d.symbol = c.symbol → Score.better d.score c.score = false

variable {sound : S → Prop} {offers : List (Candidate S)} {c d : Candidate S}

/-- The first of the best was offered. -/
theorem IsFirstBest.mem (h : IsFirstBest offers c) : c ∈ offers := by
  obtain ⟨before, after, rfl, -⟩ := h
  exact List.mem_append_right _ List.mem_cons_self

/-- No candidate for the symbol is better than the first of the best. -/
theorem IsFirstBest.not_better (ranked : Score.Ranked sound) (scores : ∀ c ∈ offers, sound c.score)
    (h : IsFirstBest offers c) (hd : d ∈ offers) (same : d.symbol = c.symbol) :
    Score.better d.score c.score = false := by
  have scoreC := scores c h.mem
  obtain ⟨before, after, rfl, beats, unbeaten⟩ := h
  rcases List.mem_append.mp hd with earlier | later
  · exact ranked.asymm scoreC (scores d hd) (beats d earlier same)
  · rcases List.mem_cons.mp later with rfl | later
    · exact ranked.irrefl scoreC
    · exact unbeaten d later same

/-- What is kept for a symbol is the first of the best candidates for it. -/
theorem isFirstBest_of_mem_pruned (ranked : Score.Ranked sound)
    (scores : ∀ c ∈ offers, sound c.score) (h : c ∈ pruned offers) : IsFirstBest offers c := by
  induction offers using List.reverseRecOn generalizing c with
  | nil => exact absurd h List.not_mem_nil
  | append_singleton offers new ih =>
    have scores' : ∀ c ∈ offers, sound c.score := fun c hc => scores c (List.mem_append_left _ hc)
    have scoreNew : sound new.score :=
      scores new (List.mem_append_right _ (List.mem_singleton_self new))
    rw [pruned_concat] at h
    rcases keepBetter_cases (nodup_symbol_pruned offers) h with ⟨kept, stays⟩ | ⟨rfl, beats⟩
    · obtain ⟨before, after, rfl, earlier, later⟩ := ih scores' kept
      refine ⟨before, after ++ [new], by simp, earlier, fun d hd same => ?_⟩
      rcases List.mem_append.mp hd with hd | hd
      · exact later d hd same
      · rw [List.mem_singleton] at hd
        rw [hd] at same ⊢
        exact stays same
    -- the candidate that the last one beats is no worse than the others for the symbol
    · refine ⟨offers, [], rfl, fun d hd same => ?_, fun d hd => absurd hd List.not_mem_nil⟩
      obtain ⟨old, hold, same'⟩ := exists_mem_pruned hd
      have best := ih scores' hold
      exact ranked.better_of_not_better scoreNew (scores' old best.mem) (scores' d hd)
        (beats old hold (same'.trans same)) (best.not_better ranked scores' hd same'.symm)

/-- What two orders of the same offers keep for a symbol ties. -/
theorem ties_of_mem_pruned (ranked : Score.Ranked sound) (scores : ∀ c ∈ offers, sound c.score)
    {others : List (Candidate S)} (reordered : offers.Perm others) (hc : c ∈ pruned offers)
    (hd : d ∈ pruned others) (same : c.symbol = d.symbol) : Score.ties c.score d.score = true := by
  have scores' : ∀ c ∈ others, sound c.score := fun c hc => scores c (reordered.mem_iff.mpr hc)
  have first := isFirstBest_of_mem_pruned ranked scores hc
  have second := isFirstBest_of_mem_pruned ranked scores' hd
  have inFirst : d ∈ offers := reordered.mem_iff.mpr second.mem
  have inSecond : c ∈ others := reordered.mem_iff.mp first.mem
  exact ranked.ties (scores c first.mem) (scores d inFirst)
    (second.not_better ranked scores' inSecond same)
    (first.not_better ranked scores inFirst same.symm)

/-! ## Cells of logarithms -/

/-- A cell that is offered candidates with defined scores holds one for each symbol, in the order
of the first offers: the first of those with the highest score. Hence the order of the offers does
not change the best score of a symbol. -/
theorem pruned_holds_first_best (offers : List (Candidate Float))
    (defined : ∀ c ∈ offers, c.score.isNaN = false) :
    (pruned offers).map symbol = (offers.map symbol).eraseDups ∧
    (∀ c ∈ pruned offers, ∃ before after, offers = before ++ c :: after ∧
      (∀ d ∈ before, d.symbol = c.symbol → d.score < c.score) ∧
      ∀ d ∈ after, d.symbol = c.symbol → d.score ≤ c.score) ∧
    ∀ others, offers.Perm others → ∀ x, List.Forall₂ (fun c d => (c.score == d.score) = true)
      (withSymbol x (pruned offers)) (withSymbol x (pruned others)) := by
  refine ⟨map_symbol_pruned offers, fun c hc => ?_, fun others reordered x => ?_⟩
  · obtain ⟨before, after, rfl, beats, unbeaten⟩ :=
      isFirstBest_of_mem_pruned Score.ranked_float defined hc
    refine ⟨before, after, rfl, fun d hd same => of_decide_eq_true (beats d hd same),
      fun d hd same => ?_⟩
    exact (Score.better_eq_false_iff (defined d (by simp [hd])) (defined c (by simp))).mp
      (unbeaten d hd same)
  · by_cases offered : x ∈ offers.map symbol
    · obtain ⟨a, ha, rfl⟩ := List.mem_map.mp offered
      obtain ⟨c, hc, same⟩ := exists_mem_pruned ha
      obtain ⟨d, hd, same'⟩ := exists_mem_pruned (reordered.mem_iff.mp ha)
      have first := withSymbol_eq_singleton (nodup_symbol_pruned offers) hc
      have second := withSymbol_eq_singleton (nodup_symbol_pruned others) hd
      rw [same] at first
      rw [same'] at second
      rw [first, second]
      exact .cons (ties_of_mem_pruned Score.ranked_float defined reordered hc hd
        (same.trans same'.symm)) .nil
    · have absent : x ∉ others.map symbol := (reordered.map symbol).mem_iff.not.mp offered
      rw [withSymbol_eq_nil, withSymbol_eq_nil]
      · exact .nil
      · rwa [map_symbol_pruned, List.mem_eraseDups]
      · rwa [map_symbol_pruned, List.mem_eraseDups]

/-- A candidate for a symbol with a score. -/
def offer (symbol : String) (score : Float) : Candidate Float :=
  .node ⟨⟨symbol⟩, score⟩ []

/-- The better of two verb phrases takes the place of the first; of two impossible noun phrases and
of two certain sentences the first one stays, though the zeros of the latter differ in sign. -/
theorem pruned_holds_first_best_of_ties :
    let offers := [offer "VP" (-1.5), .node ⟨⟨"NP"⟩, -1.0 / 0.0⟩ [offer "N" 0.0],
      offer "VP" (-0.5), offer "NP" (-1.0 / 0.0), offer "S" (-0.0), offer "VP" (-0.5),
      offer "S" 0.0]
    (∀ c ∈ offers, c.score.isNaN = false) ∧
    pruned offers = [offer "VP" (-0.5), .node ⟨⟨"NP"⟩, -1.0 / 0.0⟩ [offer "N" 0.0],
      offer "S" (-0.0)] ∧
    (pruned offers).map symbol = [⟨"VP"⟩, ⟨"NP"⟩, ⟨"S"⟩] ∧
    ∀ x, List.Forall₂ (fun c d => (c.score == d.score) = true)
      (withSymbol x (pruned offers)) (withSymbol x (pruned offers.reverse)) := by
  intro offers
  have defined : ∀ c ∈ offers, c.score.isNaN = false := by decide
  obtain ⟨symbols, -, same⟩ := pruned_holds_first_best offers defined
  exact ⟨defined, rfl, symbols.trans (by decide +kernel), same _ offers.reverse_perm.symm⟩

end Constituency.Candidate
