import MacroScript.Proofs.Statement.Beginning
import MacroScript.Proofs.Text.Lines
/-
  The results of a script: one for each line, in order, and none of them an error. A line feed
  ends a line and nothing else does, so there is one line more than there are line feeds, and a
  script put together at a break says what its two parts say. Main statements:
  `Script.statements_total`, `Script.statements_append_break`.
-/

namespace MacroScript

/-- No line is an error. -/
theorem Script.exists_results (script : List Char) :
    ∃ ss : List (Option Statement), results script = ss.map .ok :=
  exists_map_eq_ok fun line _ => Statement.exists_ofLine line

/-- **Every line has a result.** Every line matches and says something or nothing, so a script
gives the list of what its lines say, one for each line, and no error. -/
theorem Script.statements_total (script : List Char) :
    (∀ line, Token.ofLine? line = .ok (Token.ofLine line)) ∧
    (∀ line, ∃ s, Statement.ofLine line = .ok s) ∧
    ∃ ss, results script = ss.map .ok ∧ statements script = .ok ss ∧
      ss.length = script.count '\n' + 1 ∧
      ∀ k : Nat, (ss[k]?).map .ok = ((Lines.split script)[k]?).map Statement.ofLine := by
  refine ⟨Token.ofLine?_eq_ok, Statement.exists_ofLine, ?_⟩
  obtain ⟨ss, hss⟩ := exists_results script
  unfold results at hss
  refine ⟨ss, hss, mapM_eq_ok_of_map_eq hss, ?_, ?_⟩
  · have hlen := congrArg List.length hss
    rw [List.length_map, List.length_map, Lines.length_split] at hlen
    exact hlen.symm
  · intro k
    rw [← List.getElem?_map, ← List.getElem?_map, hss]

/-! ## Scripts of two parts -/

theorem Script.results_append_break {br : Lines.Break} {a : List Char} (h : br.Fits a)
    (b : List Char) : results (a ++ (br.text ++ b)) = results a ++ results b := by
  unfold results
  rw [Lines.split_append_break h, List.map_append]

/-- **Lines do not interact.** A script that is put together from two by a carriage return and a
line feed says what the first says and then what the second says, whatever quotes, brackets and
waits are left open in the first. So it does with a bare line feed, unless that would join a
carriage return at the end of the first. -/
theorem Script.statements_append_break (a b : List Char) :
    ∃ ss ts, statements a = .ok ss ∧ statements b = .ok ts ∧
      statements (a ++ (Lines.Break.returnFeed.text ++ b)) = .ok (ss ++ ts) ∧
      (a.getLast? ≠ some '\r' →
        statements (a ++ (Lines.Break.feed.text ++ b)) = .ok (ss ++ ts)) := by
  obtain ⟨ss, hss⟩ := exists_results a
  obtain ⟨ts, hts⟩ := exists_results b
  have happend : ∀ br : Lines.Break, br.Fits a →
      statements (a ++ (br.text ++ b)) = .ok (ss ++ ts) := by
    intro br h
    apply mapM_eq_ok_of_map_eq
    rw [List.map_append, ← hss, ← hts, ← results_append_break h]
    rfl
  exact ⟨ss, ts, mapM_eq_ok_of_map_eq hss, mapM_eq_ok_of_map_eq hts,
    happend .returnFeed (Lines.Break.fits_returnFeed a), fun h => happend .feed fun _ => h⟩

/-- The second line closes neither the quote nor the wait that the first leaves open. -/
theorem Script.statements_append_break_open :
    "/a \"<wait".toList.getLast? ≠ some '\r' ∧
    ∃ ss ts, statements "/a \"<wait".toList = .ok ss ∧ statements ".3>\" b".toList = .ok ts ∧
      statements "/a \"<wait\n.3>\" b".toList = .ok (ss ++ ts) := by
  have hlast : "/a \"<wait".toList.getLast? ≠ some '\r' := by decide
  obtain ⟨ss, ts, hss, hts, -, hfeed⟩ :=
    statements_append_break "/a \"<wait".toList ".3>\" b".toList
  exact ⟨hlast, ss, ts, hss, hts, hfeed hlast⟩

end MacroScript
