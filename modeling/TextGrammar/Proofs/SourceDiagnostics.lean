import TextGrammar.Proofs.Compile.Clean
import TextGrammar.Proofs.Text.Columns

/-! # Diagnostics in the order of the source

Reports are put in the order of the offsets at which their parts start, and shown with lines and
columns. Nothing is lost or added on the way, and since locations are ordered like offsets, the
order that is seen is the one of the source. -/

namespace TextGrammar
open Text (byteLength)

/-- Some reports in the order of their starts, those with one start in the order in which they
arose. -/
structure Arranged (reports sorted : List Report) : Prop where
  perm : sorted.Perm reports
  ordered : sorted.Pairwise fun a b => a.span.start ≤ b.span.start
  stable : ∀ start, (sorted.filter fun r => r.span.start = start) =
    reports.filter fun r => r.span.start = start

namespace Diagnostic

theorem arranged_mergeSort (reports : List Report) :
    Arranged reports (reports.mergeSort fun a b => a.span.start ≤ b.span.start) := by
  have htrans : ∀ a b c : Report, decide (a.span.start ≤ b.span.start) →
      decide (b.span.start ≤ c.span.start) → decide (a.span.start ≤ c.span.start) := by
    intro a b c hab hbc
    exact decide_eq_true ((of_decide_eq_true hab).trans (of_decide_eq_true hbc))
  have htotal : ∀ a b : Report,
      decide (a.span.start ≤ b.span.start) || decide (b.span.start ≤ a.span.start) := by
    intro a b
    rw [Bool.or_eq_true, decide_eq_true_iff, decide_eq_true_iff]
    exact Nat.le_total _ _
  have hperm := List.mergeSort_perm reports fun a b => decide (a.span.start ≤ b.span.start)
  refine ⟨hperm, ?_, fun start => ?_⟩
  · exact (List.pairwise_mergeSort htrans htotal reports).imp fun h => of_decide_eq_true h
  · -- Reports with one start are in order as they are, so that sorting keeps their order.
    have hequal : (reports.filter fun r => r.span.start = start).Pairwise fun a b =>
        decide (a.span.start ≤ b.span.start) = true := by
      refine List.pairwise_of_forall_mem_list fun a ha b hb => decide_eq_true ?_
      have ha := of_decide_eq_true (List.mem_filter.1 ha).2
      have hb := of_decide_eq_true (List.mem_filter.1 hb).2
      rw [ha, hb]
    have hsublist := (List.sublist_mergeSort htrans htotal hequal List.filter_sublist).filter
      fun r => decide (r.span.start = start)
    rw [List.filter_filter] at hsublist
    simp only [Bool.and_self] at hsublist
    exact (hsublist.eq_of_length (hperm.filter _).length_eq.symm).symm

/-- Each report gives the diagnostic with its message, at the location of its start. -/
theorem exists_arranged (source : List Char) (reports : List Report) :
    ∃ sorted, Arranged reports sorted ∧ ofReports source reports = sorted.map fun r =>
      ⟨(LineMap.ofText source).location (min r.span.start (byteLength source)), r.message⟩ := by
  refine ⟨_, arranged_mergeSort reports, ?_⟩
  simp only [ofReports, LineMap.location_eq, Text.before_min]

/-- Diagnostics are in the order of their locations, if these are at offsets of 32 bits. -/
theorem pairwise_location_ofReports {source : List Char} {reports : List Report}
    (hsize : ∀ r ∈ reports, min r.span.start (byteLength source) < 2 ^ 32) :
    (ofReports source reports).Pairwise fun a b => a.location ≤ b.location := by
  have harranged := arranged_mergeSort reports
  rw [ofReports, List.pairwise_map]
  refine harranged.ordered.imp_of_mem fun _ hb hle => ?_
  exact LineMap.location_mono (hsize _ (harranged.perm.mem_iff.1 hb)) hle

end Diagnostic

namespace Compile

/-- A source with diagnostics parses, and they tell what was found in it. -/
theorem compile_eq_unsound {source : String} {ds : List Diagnostic}
    (h : compile source = .error (.unsound ds)) :
    ∃ file, Source.parseFile source.toList = .ok file ∧
      ds = Diagnostic.ofReports source.toList ((analyse file).findings.map Finding.report) := by
  simp only [compile, compileLogged] at h
  cases hfile : Source.parseFile source.toList with
  | error fault =>
    rw [hfile] at h
    cases h
  | ok file =>
    rw [hfile] at h
    have hnone : ∀ g, ¬Compiles file g := by
      intro g hg
      rw [compileFile_eq_ok.2 hg] at h
      cases h
    rw [compileFile_eq_error hnone] at h
    cases h
    exact ⟨file, rfl, rfl⟩

/-- A source that parses is compiled, or refused with diagnostics. -/
theorem exists_unsound {source : String} (hparsed : (Source.parseFile source.toList).isOk = true)
    (hrefused : (compile source).isOk = false) :
    ∃ ds, compile source = .error (.unsound ds) := by
  cases hfile : Source.parseFile source.toList with
  | error fault =>
    rw [hfile] at hparsed
    cases hparsed
  | ok file =>
    have hcompile : compile source = (compileFile source.toList file).1 := by
      simp only [compile, compileLogged, hfile]
    rw [hcompile] at hrefused ⊢
    by_cases hnone : ∀ g, ¬Compiles file g
    · exact ⟨_, compileFile_eq_error hnone⟩
    · obtain ⟨g, hg⟩ := not_forall_not.1 hnone
      rw [compileFile_eq_ok.2 hg] at hrefused
      cases hrefused

end Compile

/-- Each report becomes a diagnostic with its message and the location of its start, or of the end
of the source for one behind it; they are in the order of the starts, and those with one start in
the order in which they arose. So locations never go back, whatever spans of 32 bits the reports
have, and in particular in what is reported on a source that parses but has no grammar. -/
theorem diagnostics_ordered (source : List Char) (reports : List Report) :
    (∃ sorted, Arranged reports sorted ∧
      Diagnostic.ofReports source reports = sorted.map fun r =>
        ⟨(LineMap.ofText source).location (min r.span.start (byteLength source)), r.message⟩) ∧
    ((∀ r ∈ reports, r.span.start < 2 ^ 32) →
      (Diagnostic.ofReports source reports).Pairwise fun a b => a.location ≤ b.location) ∧
    ∀ text ds, byteLength text.toList < 2 ^ 32 → compile text = .error (.unsound ds) →
      (∃ file, Source.parseFile text.toList = .ok file ∧ ds = Diagnostic.ofReports text.toList
        ((Compile.analyse file).findings.map Finding.report)) ∧
      ds.Pairwise fun a b => a.location ≤ b.location := by
  refine ⟨Diagnostic.exists_arranged source reports, fun hspans => ?_, fun text ds hsize h => ?_⟩
  · exact Diagnostic.pairwise_location_ofReports fun r hr =>
      (Nat.min_le_left _ _).trans_lt (hspans r hr)
  · obtain ⟨file, hfile, rfl⟩ := Compile.compile_eq_unsound h
    refine ⟨⟨file, hfile, rfl⟩, Diagnostic.pairwise_location_ofReports fun r _ => ?_⟩
    exact (Nat.min_le_right _ _).trans_lt hsize

def unboundSource : String := "meta \x7b\n  a := [x: str] => y + z;\n  ---\n  b\n\x7d"

/-- A report behind the end, one inside a character, and two at the same offset. -/
def scatteredReports : List Report :=
  [⟨⟨90, 91⟩, "past"⟩, ⟨⟨4, 5⟩, "early"⟩, ⟨⟨1, 7⟩, "inside"⟩, ⟨⟨4, 4⟩, "late"⟩]

theorem diagnostics_ordered_scattered :
    (∃ sorted, Arranged scatteredReports sorted) ∧
    (∀ r ∈ scatteredReports, r.span.start < 2 ^ 32) ∧
    ((Diagnostic.ofReports "é\nab".toList scatteredReports).Pairwise fun a b =>
      a.location ≤ b.location) ∧
    byteLength unboundSource.toList < 2 ^ 32 ∧
    ∃ ds, compile unboundSource = .error (.unsound ds) ∧
      ds.Pairwise fun a b => a.location ≤ b.location := by
  obtain ⟨⟨sorted, harranged, -⟩, hordered, hcompile⟩ :=
    diagnostics_ordered "é\nab".toList scatteredReports
  have hspans : ∀ r ∈ scatteredReports, r.span.start < 2 ^ 32 := by simp [scatteredReports]
  have hlength : byteLength unboundSource.toList ≤ 100 := by decide
  have hsize : byteLength unboundSource.toList < 2 ^ 32 := by omega
  have hrefused : (compile unboundSource).isOk = false := by decide +kernel
  have hparsed : (Source.parseFile unboundSource.toList).isOk = true := by decide +kernel
  obtain ⟨ds, hds⟩ : ∃ ds, compile unboundSource = .error (.unsound ds) :=
    Compile.exists_unsound hparsed hrefused
  exact ⟨⟨sorted, harranged⟩, hspans, hordered hspans, hsize, ds, hds, (hcompile _ ds hsize hds).2⟩

end TextGrammar
