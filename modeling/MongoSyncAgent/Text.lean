import Mathlib.Data.List.DropRight
import Mathlib.Algebra.Order.Group.Nat

/-!
Lines of a text, the way the tailer takes them: carriage returns before a line feed go with
it, the text is split at line feeds, carriage returns at the end of a line are stripped, and
blank lines are dropped.
-/

namespace MongoSyncAgent.Text

/-- `text.replace("\r\n", "\n")`. -/
def replaceCRLF : List Char → List Char
  | [] => []
  | '\r' :: '\n' :: r => '\n' :: replaceCRLF r
  | c :: r => c :: replaceCRLF r

/-- `line.rstrip("\r")`. -/
def rstripCR (line : List Char) : List Char := line.rdropWhile (· == '\r')

/-- The lines of `tail_file`: `[line.rstrip("\r") for line in ... if line.rstrip("\r") != ""]`. -/
def textLines (text : List Char) : List String :=
  (((replaceCRLF text).splitOn '\n').map rstripCR).filterMap
    fun l => if l = [] then none else some (String.ofList l)

/-- What follows a line feed is not touched by what precedes it. -/
lemma replaceCRLF_append (a b : List Char) :
    replaceCRLF (a ++ '\n' :: b) = replaceCRLF (a ++ ['\n']) ++ replaceCRLF b := by
  induction a using replaceCRLF.induct with
  | case1 => simp [replaceCRLF]
  | case2 r ih => simp [replaceCRLF, ih]
  | case3 c r hne ih =>
    -- the only way the pair can straddle is a last `\r` just before the line feed
    rcases r with _ | ⟨d, r⟩
    · by_cases hc : c = '\r'
      · subst hc; simp [replaceCRLF]
      · simp [replaceCRLF, hc]
    · have hcd : ¬ (c = '\r' ∧ d = '\n') := fun h => hne r h.1 (by rw [h.2])
      have hstep : ∀ t, replaceCRLF (c :: d :: t) = c :: replaceCRLF (d :: t) := by
        intro t
        rw [replaceCRLF.eq_3]
        rintro r' h1 h2
        exact hcd ⟨h1, (List.cons.inj h2).1⟩
      simp only [List.cons_append] at ih ⊢
      rw [hstep, hstep, ih, List.cons_append]

lemma replaceCRLF_concat (a : List Char) : ∃ t, replaceCRLF (a ++ ['\n']) = t ++ ['\n'] := by
  induction a using replaceCRLF.induct with
  | case1 => exact ⟨[], by simp [replaceCRLF]⟩
  | case2 r ih =>
    obtain ⟨t, ht⟩ := ih
    exact ⟨'\n' :: t, by simp [replaceCRLF, ht]⟩
  | case3 c r hne ih =>
    obtain ⟨t, ht⟩ := ih
    rcases r with _ | ⟨d, r⟩
    · by_cases hc : c = '\r'
      · subst hc; exact ⟨[], by simp [replaceCRLF]⟩
      · exact ⟨[c], by simp [replaceCRLF, hc]⟩
    · refine ⟨c :: t, ?_⟩
      simp only [List.cons_append] at ht ⊢
      rw [replaceCRLF.eq_3, ht]
      rintro r' h1 h2
      exact hne r h1 (by rw [(List.cons.inj h2).1])

lemma splitOn_append (t x : List Char) :
    (t ++ '\n' :: x).splitOn '\n' = t.splitOn '\n' ++ x.splitOn '\n' := by
  simpa [List.splitOn] using List.splitOnP_append_cons (p := (· == '\n')) t x (by simp)

/-- **Cutting a text after a line feed** does not change its lines. -/
theorem textLines_append (a x : List Char) :
    textLines (a ++ '\n' :: x) = textLines (a ++ ['\n']) ++ textLines x := by
  obtain ⟨t, ht⟩ := replaceCRLF_concat a
  have hs : (t ++ ['\n']).splitOn '\n' = t.splitOn '\n' ++ [[]] := by
    simpa using splitOn_append t []
  unfold textLines
  rw [replaceCRLF_append, ht, List.append_assoc, List.singleton_append, splitOn_append, hs]
  simp [rstripCR]

@[simp] lemma textLines_nil : textLines [] = [] := by
  simp [textLines, replaceCRLF, rstripCR]

end MongoSyncAgent.Text
