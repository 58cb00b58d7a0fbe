import Constituency.Proofs.Chart.Exhaustive
import Constituency.Proofs.Chart.FirstBest

/-!
# The pruned chart

A cell of the pruned chart keeps one of the best candidates for each symbol of
the exhaustive cell. Replacing a part by one that is no worse makes nothing
worse, so pruning the parts first loses no best candidate of the whole. The
parser then shows one best tree whenever the exhaustive parser shows any.

The laws of scores are those of numbers whose order is total and whose addition
is monotone; nothing else is used of the logarithms of probabilities.
-/

namespace Constituency

variable {W S : Type} [Score S]

/-- Scores that are ranked and added like numbers; `sound` tells which scores these are. -/
structure Score.Lawful (sound : S → Prop) : Prop where
  /-- The score of a word is sound. -/
  zero : sound Score.zero
  /-- The lowest score is sound. -/
  lowest : sound Score.lowest
  /-- The sum of sound scores is sound. -/
  add {a b : S} (ha : sound a) (hb : sound b) : sound (Score.add a b)
  /-- Of two scores at most one is better than the other. -/
  asymm {a b : S} (ha : sound a) (hb : sound b) (h : Score.better a b = true) :
    Score.better b a = false
  /-- A score that is no better than a second one is no better than what that is no better than. -/
  trans {a b c : S} (ha : sound a) (hb : sound b) (hc : sound c) (h : Score.better a b = false)
    (h' : Score.better b c = false) : Score.better a c = false
  /-- Two scores tie when neither is better. -/
  ties {a b : S} (ha : sound a) (hb : sound b) (h : Score.better a b = false)
    (h' : Score.better b a = false) : Score.ties a b = true
  /-- Addition on the right is monotone. -/
  add_right {a b c : S} (ha : sound a) (hb : sound b) (hc : sound c)
    (h : Score.better a b = false) : Score.better (Score.add a c) (Score.add b c) = false
  /-- Addition on the left is monotone. -/
  add_left {a b c : S} (ha : sound a) (hb : sound b) (hc : sound c)
    (h : Score.better a b = false) : Score.better (Score.add c a) (Score.add c b) = false
  /-- The lowest score is no better than another one. -/
  lowest_le {a : S} (ha : sound a) : Score.better Score.lowest a = false

namespace Score.Lawful

variable {sound : S → Prop}

/-- Scores that are added like numbers are ranked. -/
theorem ranked (laws : Lawful sound) : Ranked sound :=
  ⟨laws.asymm, laws.trans, laws.ties⟩

/-- No score is better than itself. -/
theorem irrefl (laws : Lawful sound) {a : S} (ha : sound a) : Score.better a a = false :=
  laws.ranked.irrefl ha

/-- Two parts that are no better than two others are no better together. -/
theorem add_add (laws : Lawful sound) {a b c d e : S} (ha : sound a) (hb : sound b)
    (hc : sound c) (hd : sound d) (he : sound e) (first : Score.better a b = false)
    (second : Score.better c d = false) :
    Score.better (Score.add (Score.add e a) c) (Score.add (Score.add e b) d) = false := by
  have left := laws.add_right (laws.add he ha) (laws.add he hb) hc (laws.add_left ha hb he first)
  have right := laws.add_left hc hd (laws.add he hb) second
  exact laws.trans (laws.add (laws.add he ha) hc) (laws.add (laws.add he hb) hc)
    (laws.add (laws.add he hb) hd) left right

end Score.Lawful

/-! ## Keeping the best of each symbol -/

namespace Candidate

variable {sound : S → Prop}

/-- A cell that holds, for each symbol of some candidates, one of the best of them. -/
structure Summary (all kept : List (Candidate S)) : Prop where
  /-- There is one candidate for each symbol. -/
  nodup : (kept.map symbol).Nodup
  /-- Each one is one of the candidates. -/
  mem : ∀ c ∈ kept, c ∈ all
  /-- None of the candidates is better. -/
  best : ∀ d ∈ all, ∃ c ∈ kept, c.symbol = d.symbol ∧ Score.better d.score c.score = false

namespace Summary

variable {all kept : List (Candidate S)}

/-- A candidate that is kept is the one for its symbol. -/
theorem eq_of_symbol (h : Summary all kept) {c d : Candidate S} (hc : c ∈ kept) (hd : d ∈ kept)
    (same : c.symbol = d.symbol) : c = d :=
  List.inj_on_of_nodup_map h.nodup hc hd same

/-- None of the candidates for a symbol is better than the one that is kept. -/
theorem not_better (h : Summary all kept) {c d : Candidate S} (hc : c ∈ kept) (hd : d ∈ all)
    (same : d.symbol = c.symbol) : Score.better d.score c.score = false := by
  obtain ⟨e, he, hsymbol, hscore⟩ := h.best d hd
  rwa [h.eq_of_symbol he hc (hsymbol.trans same)] at hscore

/-- What is kept has the symbols of the candidates. -/
theorem mem_map_symbol (h : Summary all kept) {x : Symbol} :
    x ∈ kept.map symbol ↔ x ∈ all.map symbol := by
  simp only [List.mem_map]
  constructor
  · rintro ⟨c, hc, rfl⟩
    exact ⟨c, h.mem c hc, rfl⟩
  · rintro ⟨d, hd, rfl⟩
    obtain ⟨c, hc, hsymbol, -⟩ := h.best d hd
    exact ⟨c, hc, hsymbol⟩

/-- A summary of part of the candidates summarises all, when none of the others is better. -/
theorem extend (laws : Score.Lawful sound) {some : List (Candidate S)} (h : Summary some kept)
    (scores : ∀ c ∈ all, sound c.score) (sub : ∀ c ∈ some, c ∈ all)
    (covers : ∀ d ∈ all, ∃ c ∈ some, c.symbol = d.symbol ∧
      Score.better d.score c.score = false) : Summary all kept := by
  refine ⟨h.nodup, fun c hc => sub c (h.mem c hc), fun d hd => ?_⟩
  obtain ⟨e, he, hsymbol, hscore⟩ := covers d hd
  obtain ⟨c, hc, hsymbol', hscore'⟩ := h.best e he
  exact ⟨c, hc, hsymbol'.trans hsymbol,
    laws.trans (scores d hd) (scores e (sub e he)) (scores c (sub c (h.mem c hc))) hscore hscore'⟩

end Summary

/-- The best candidates of each symbol summarise the candidates. -/
theorem summary_pruned (laws : Score.Lawful sound) {all : List (Candidate S)}
    (scores : ∀ c ∈ all, sound c.score) : Summary all (pruned all) := by
  have best : ∀ c ∈ pruned all, IsFirstBest all c :=
    fun c hc => isFirstBest_of_mem_pruned laws.ranked scores hc
  refine ⟨nodup_symbol_pruned all, fun c hc => (best c hc).mem, fun d hd => ?_⟩
  obtain ⟨c, hc, same⟩ := exists_mem_pruned hd
  exact ⟨c, hc, same, (best c hc).not_better laws.ranked scores hd same.symm⟩

end Candidate

/-! ## The cells -/

namespace Store

variable [WeightScore W S] {s : Store W} {sound : S → Prop}

/-- The scores of what is built are sound when those of the rules are. -/
theorem Builds.sound_score (laws : Score.Lawful sound)
    (weights : ∀ r ∈ s.rules, sound (WeightScore.ofWeight r.weight)) {c : Candidate S}
    {words : List Symbol} {used : List (Rule W)} (h : s.Builds c words used) : sound c.score := by
  induction h with
  | word licence => exact weights _ licence.1
  | pair stored _ _ _ ihLeft ihRight =>
    exact laws.add (laws.add (weights _ stored) ihLeft) ihRight

/-- Candidates of a span come from larger cells too. -/
theorem mem_spanCandidates_mono {words : List Symbol} {cell cell' : Nat → Nat → List (Candidate S)}
    {first last : Nat} (ordered : first ≤ last)
    (sub : ∀ first' last', first ≤ first' → first' ≤ last' → last' ≤ last →
      last' - first' < last - first → ∀ c ∈ cell first' last', c ∈ cell' first' last')
    {c : Candidate S} (h : c ∈ s.spanCandidates words cell first last) :
    c ∈ s.spanCandidates words cell' first last := by
  rw [spanCandidates] at h ⊢
  by_cases single : first = last
  · rwa [if_pos single] at h ⊢
  · rw [if_neg single, mem_splitCandidates] at h ⊢
    obtain ⟨k, hk, left, hleft, right, hright, hc⟩ := h
    exact ⟨k, hk, left, sub _ _ (by omega) (by omega) (by omega) (by omega) left hleft, right,
      sub _ _ (by omega) (by omega) (by omega) (by omega) right hright, hc⟩

/-- Joining parts that are no worse gives a candidate that is no worse. -/
theorem Indexed.exists_pairCandidates (h : s.Indexed) (laws : Score.Lawful sound)
    (weights : ∀ r ∈ s.rules, sound (WeightScore.ofWeight r.weight))
    {left right left' right' d : Candidate S} (scoreLeft : sound left.score)
    (scoreRight : sound right.score) (scoreLeft' : sound left'.score)
    (scoreRight' : sound right'.score) (sameLeft : left'.symbol = left.symbol)
    (sameRight : right'.symbol = right.symbol)
    (worseLeft : Score.better left.score left'.score = false)
    (worseRight : Score.better right.score right'.score = false)
    (hd : d ∈ s.pairCandidates left right) :
    ∃ c ∈ s.pairCandidates left' right', c.symbol = d.symbol ∧
      Score.better d.score c.score = false := by
  obtain ⟨r, stored, sides, rfl⟩ := h.mem_pairCandidates.mp hd
  have sides' : r.right = [left'.symbol, right'.symbol] := by rw [sameLeft, sameRight, sides]
  exact ⟨_, h.mem_pairCandidates.mpr ⟨r, stored, sides', rfl⟩, rfl,
    laws.add_add scoreLeft scoreLeft' scoreRight scoreRight' (weights r stored)
      worseLeft worseRight⟩

/-- A cell of the pruned chart summarises that of the exhaustive chart. -/
theorem Indexed.summary_chart (h : s.Indexed) (laws : Score.Lawful sound)
    (weights : ∀ r ∈ s.rules, sound (WeightScore.ofWeight r.weight)) {words : List Symbol}
    {first last : Nat} (ordered : first ≤ last) (inside : last < words.length) :
    Candidate.Summary (s.allCandidates words first last)
      ((s.chart Candidate.pruned words).cell first last) := by
  induction hn : last - first using Nat.strongRecOn generalizing first last with
  | _ n ih =>
    have scores : ∀ {first' last'}, first' ≤ last' → last' < words.length →
        ∀ c ∈ s.allCandidates words first' last', sound c.score := by
      intro first' last' ordered' inside' c hc
      obtain ⟨used, built⟩ := (h.mem_allCandidates ordered' inside').mp hc
      exact built.sound_score laws weights
    have parts : ∀ first' last', first ≤ first' → first' ≤ last' → last' ≤ last →
        last' - first' < last - first →
        Candidate.Summary (s.allCandidates words first' last')
          ((s.chart Candidate.pruned words).cell first' last') :=
      fun first' last' _ ordered' _ shorter => ih _ (by omega) ordered' (by omega) rfl
    have sub : ∀ c ∈ s.spanCandidates words (s.chart Candidate.pruned words).cell first last,
        c ∈ s.allCandidates words first last := by
      intro c hc
      rw [allCandidates, cell_chart s id ordered inside]
      exact mem_spanCandidates_mono ordered
        (fun first' last' h1 h2 h3 h4 => (parts first' last' h1 h2 h3 h4).mem) hc
    rw [cell_chart s Candidate.pruned ordered inside]
    refine (Candidate.summary_pruned laws fun c hc => scores ordered inside c (sub c hc)).extend
      laws (scores ordered inside) sub fun d hd => ?_
    have hd' := hd
    rw [allCandidates, cell_chart s id ordered inside, id, spanCandidates] at hd'
    rw [spanCandidates]
    by_cases single : first = last
    · rw [if_pos single] at hd' ⊢
      exact ⟨d, hd', rfl, laws.irrefl (scores ordered inside d hd)⟩
    · rw [if_neg single, mem_splitCandidates] at hd'
      rw [if_neg single]
      obtain ⟨k, hk, left, hleft, right, hright, hpair⟩ := hd'
      have front := parts first (first + k) (by omega) (by omega) (by omega) (by omega)
      have back := parts (first + k + 1) last (by omega) (by omega) (by omega) (by omega)
      obtain ⟨left', hleft', sameLeft, worseLeft⟩ := front.best left hleft
      obtain ⟨right', hright', sameRight, worseRight⟩ := back.best right hright
      obtain ⟨c, hc, same, worse⟩ := h.exists_pairCandidates laws weights
        (scores (by omega) (by omega) left hleft) (scores (by omega) (by omega) right hright)
        (scores (by omega) (by omega) left' (front.mem left' hleft'))
        (scores (by omega) (by omega) right' (back.mem right' hright'))
        sameLeft sameRight worseLeft worseRight hpair
      exact ⟨c, mem_splitCandidates.mpr ⟨k, hk, left', hleft', right', hright', hc⟩, same, worse⟩

end Store

/-! ## The tree that is shown -/

namespace Grammar

variable {sound : S → Prop}

/-- A single candidate ties with the best score. -/
theorem ties_bestScore_singleton (laws : Score.Lawful sound) {c : Candidate S}
    (score : sound c.score) : Score.ties c.score (bestScore [c]) = true := by
  rw [bestScore, List.foldl_cons, List.foldl_nil]
  cases above : Score.better c.score Score.lowest with
  | true =>
    rw [if_pos rfl]
    exact laws.ties score score (laws.irrefl score) (laws.irrefl score)
  | false =>
    rw [if_neg Bool.false_ne_true]
    exact laws.ties score laws.lowest above (laws.lowest_le score)

variable [WeightScore W S]

/-- The candidates of the pruned chart for a start symbol summarise those of the exhaustive one. -/
theorem summary_goals {g : Grammar W} (h : g.store.Indexed) (laws : Score.Lawful sound)
    (weights : ∀ r ∈ g.store.rules, sound (WeightScore.ofWeight r.weight)) (start : Symbol)
    (words : List String) :
    Candidate.Summary (goals start (g.chart words)) (goals start (g.bestChart words)) := by
  rw [goals, goals, chart, bestChart]
  by_cases empty : g.tokenSymbols words = []
  · rw [empty, top?_chart_nil, top?_chart_nil]
    exact ⟨.nil, fun c hc => absurd hc List.not_mem_nil, fun d hd => absurd hd List.not_mem_nil⟩
  · have pos := List.length_pos_iff.mpr empty
    have inside : (g.tokenSymbols words).length - 1 < (g.tokenSymbols words).length := by omega
    have whole := h.summary_chart laws weights (Nat.zero_le _) inside
    rw [top?_chart g.store id empty, top?_chart g.store Candidate.pruned empty, Option.getD_some,
      Option.getD_some, Candidate.withSymbol, Candidate.withSymbol]
    refine ⟨whole.nodup.sublist (List.filter_sublist.map _), fun c hc => ?_, fun d hd => ?_⟩
    · rw [List.mem_filter] at hc ⊢
      exact ⟨whole.mem c hc.1, hc.2⟩
    · rw [List.mem_filter] at hd
      obtain ⟨c, hc, same, worse⟩ := whole.best d hd.1
      exact ⟨c, List.mem_filter.mpr ⟨hc, by rw [same]; exact hd.2⟩, same, worse⟩

/-- Without a candidate for the start symbol the pruning parser shows nothing; else it shows the
best one, alone. -/
theorem parseBest_cases {g : Grammar W} (h : g.store.Indexed) (laws : Score.Lawful sound)
    (weights : ∀ r ∈ g.store.rules, sound (WeightScore.ofWeight r.weight)) (start : Symbol)
    (words : List String) :
    (goals start (g.chart words) = [] ∧ g.parseBest start words = []) ∨
      ∃ c ∈ goals start (g.chart words), g.parseBest start words = [(g.finish words c, c.score)] ∧
        ∀ d ∈ goals start (g.chart words), Score.better d.score c.score = false := by
  have summary := summary_goals h laws weights start words
  have symbols : ∀ c ∈ goals start (g.chart words), c.symbol = start :=
    fun c hc => ((mem_goals_iff_builds h).mp hc).1
  rw [parseBest]
  generalize goals start (g.bestChart words) = best at summary ⊢
  match best with
  | [] =>
    left
    refine ⟨List.eq_nil_iff_forall_not_mem.mpr fun d hd => ?_, rfl⟩
    obtain ⟨c, hc, -⟩ := summary.best d hd
    exact List.not_mem_nil hc
  | [c] =>
    right
    have hc := summary.mem c (List.mem_singleton_self c)
    have score : sound c.score := by
      obtain ⟨-, used, built⟩ := (mem_goals_iff_builds h).mp hc
      exact built.sound_score laws weights
    refine ⟨c, hc, ?_, fun d hd => summary.not_better (List.mem_singleton_self c) hd
      ((symbols d hd).trans (symbols c hc).symm)⟩
    rw [List.filter_cons, ties_bestScore_singleton laws score, if_pos rfl, List.filter_nil]
    rfl
  | c :: d :: rest =>
    -- two candidates for one symbol are not kept
    have same := (symbols c (summary.mem c (by simp))).trans
      (symbols d (summary.mem d (by simp))).symm
    have distinct := summary.nodup
    rw [List.map_cons, List.map_cons, same, List.nodup_cons] at distinct
    exact absurd List.mem_cons_self distinct.1

/-- The pruned chart holds, in every span, exactly one candidate for each symbol for which the
exhaustive chart holds any: one of these, and none of these is better. So the pruning parser shows
one of the best trees when the exhaustive parser shows any, and none otherwise. -/
theorem bestChart_summarises {R : Type} [ProbabilityNumber R] [LE R]
    [WeightScore (Probability R) S] (laws : Score.Lawful sound)
    (log : ∀ p : Probability R, ProbabilityNumber.zero ≤ p.value →
      p.value ≤ ProbabilityNumber.one → sound (WeightScore.ofWeight p))
    (g : Grammar (Probability R)) (h : g.Reachable (·.right ≠ []))
    (probabilities : ∀ r ∈ g.store.rules,
      ProbabilityNumber.zero ≤ r.weight.value ∧ r.weight.value ≤ ProbabilityNumber.one)
    (words : List String) :
    (∀ first last, first ≤ last → last < words.length →
      (((g.bestChart words).cell first last).map Candidate.symbol).Nodup ∧
      (∀ x, x ∈ ((g.bestChart words).cell first last).map Candidate.symbol ↔
        x ∈ ((g.chart words).cell first last).map Candidate.symbol) ∧
      ∀ c ∈ (g.bestChart words).cell first last, c ∈ (g.chart words).cell first last ∧
        ∀ d ∈ (g.chart words).cell first last, d.symbol = c.symbol →
          Score.better d.score c.score = false) ∧
    ∀ start,
      (g.parse start words = [] → g.parseBest start words = []) ∧
      (g.parse start words ≠ [] → ∃ c ∈ goals start (g.chart words),
        g.parseBest start words = [(g.finish words c, c.score)] ∧
        g.finish words c ∈ g.parse start words ∧
        ∀ d ∈ goals start (g.chart words), Score.better d.score c.score = false) := by
  obtain ⟨indexed, -⟩ := h.indexed_filled fun _ filled => filled
  have weights : ∀ r ∈ g.store.rules, sound (WeightScore.ofWeight r.weight) :=
    fun r hr => log r.weight (probabilities r hr).1 (probabilities r hr).2
  have length : (g.tokenSymbols words).length = words.length := List.length_map _
  constructor
  · intro first last ordered inside
    rw [← length] at inside
    have summary := indexed.summary_chart laws weights ordered inside
    exact ⟨summary.nodup, fun x => summary.mem_map_symbol,
      fun c hc => ⟨summary.mem c hc, fun d hd => summary.not_better hc hd⟩⟩
  · intro start
    rcases parseBest_cases indexed laws weights start words with
      ⟨none, shown⟩ | ⟨c, hc, shown, best⟩
    · refine ⟨fun _ => shown, fun some => absurd ?_ some⟩
      rw [parse, none, List.map_nil]
    · have shownToo : g.finish words c ∈ g.parse start words := List.mem_map_of_mem hc
      exact ⟨fun none => absurd (none ▸ shownToo) List.not_mem_nil,
        fun _ => ⟨c, hc, shown, shownToo, best⟩⟩

/-- The logarithms of the certain and of the impossible; anything else counts as impossible. -/
@[reducible]
def certainty : WeightScore (Probability Float) Float where
  ofWeight p := if p.value == 1.0 then 0.0 else -1.0 / 0.0

/-- The scores of what is certain or impossible. -/
def Extreme (score : Float) : Prop :=
  score = 0.0 ∨ score = -1.0 / 0.0

/-- The scores of what is certain or impossible are ranked and added like numbers. -/
theorem lawful_extreme : Score.Lawful Extreme where
  zero := .inl rfl
  lowest := .inr rfl
  add := by
    rintro a b (rfl | rfl) (rfl | rfl)
    · exact .inl (by decide)
    all_goals exact .inr (by decide)
  asymm := by rintro a b (rfl | rfl) (rfl | rfl) <;> decide
  trans := by rintro a b c (rfl | rfl) (rfl | rfl) (rfl | rfl) <;> decide
  ties := by rintro a b (rfl | rfl) (rfl | rfl) <;> decide
  add_right := by rintro a b c (rfl | rfl) (rfl | rfl) (rfl | rfl) <;> decide
  add_left := by rintro a b c (rfl | rfl) (rfl | rfl) (rfl | rfl) <;> decide
  lowest_le := by rintro a (rfl | rfl) <;> decide

/-- A grammar with certain and impossible derivations of the same words. -/
def wagered : Grammar (Probability Float) :=
  ofRules [⟨⟨"S"⟩, [⟨"S"⟩, ⟨"S"⟩], .binary, .ofValue 1.0⟩,
    ⟨⟨"S"⟩, [⟨"T"⟩, ⟨"S"⟩], .binary, .ofValue 0.0⟩,
    ⟨⟨"S"⟩, [⟨"a"⟩], .terminal, .ofValue 1.0⟩, ⟨⟨"T"⟩, [⟨"a"⟩], .terminal, .ofValue 1.0⟩]

/-- Of the six derivations of three words one is shown, and it is a best one. -/
theorem bestChart_summarises_wagered :
    Score.Lawful Extreme ∧
    (∀ p : Probability Float, Extreme (certainty.ofWeight p)) ∧
    wagered.Reachable (·.right ≠ []) ∧
    (∀ r ∈ wagered.store.rules, (0.0 : Float) ≤ r.weight.value ∧ r.weight.value ≤ 1.0) ∧
    (@parse _ _ _ certainty wagered ⟨"S"⟩ ["a", "a", "a"]).length = 6 ∧
    ∃ shown, @parseBest _ _ _ certainty wagered ⟨"S"⟩ ["a", "a", "a"] = [shown] := by
  have scores : ∀ p : Probability Float, Extreme (certainty.ofWeight p) := by
    intro p
    change Extreme (if p.value == 1.0 then 0.0 else -1.0 / 0.0)
    split
    · exact .inl rfl
    · exact .inr rfl
  have reachable : wagered.Reachable (·.right ≠ []) := Reachable.ofRules (by simp)
  have probabilities : ∀ r ∈ wagered.store.rules,
      (0.0 : Float) ≤ r.weight.value ∧ r.weight.value ≤ 1.0 := by decide +kernel
  have six : (@parse _ _ _ certainty wagered ⟨"S"⟩ ["a", "a", "a"]).length = 6 := by
    decide +kernel
  have shown := (@bestChart_summarises Float _ Extreme Float _ _ certainty lawful_extreme
    (fun p _ _ => scores p) wagered reachable probabilities ["a", "a", "a"]).2 ⟨"S"⟩
  obtain ⟨c, -, single, -⟩ := shown.2 (List.length_pos_iff.mp (by rw [six]; decide))
  exact ⟨lawful_extreme, scores, reachable, probabilities, six, _, single⟩

end Grammar

end Constituency
