import Lz4Frame.Proofs.Truncation
import Lz4Frame.Proofs.Uncancelled

/-! Bytes behind a complete frame. Whatever they look like, further blocks, a checksum or another
frame, nothing that is reported of the frame depends on them, `analyze_append`. All there is to say
is that they are there. -/

namespace Lz4Frame

/-- Behind a frame that ends with its input, bytes make no row and no content. -/
theorem Report.of_append {input suffix : Bytes} {frame : Frame} {decoded : ContentOutcome}
    (hend : frame.endOffset = some input.size)
    (hblocks : ∀ block ∈ frame.blocks, block.endOffset ≤ input.size)
    (hcancelled : decoded.cancelledAt = none) (hsuffix : suffix ≠ #[]) :
    let report := of input { frame := some frame } decoded
    let issues := report.issues ++ [.trailingData input.size suffix.size]
    of (input ++ suffix) { frame := some frame } decoded =
      { report with
        inputSize := input.size + suffix.size
        issues
        verdict := .partiallyValid issues } := by
  intro report issues
  have hrows : frame.blocks.zipWith (BlockRow.of (input ++ suffix)) decoded.blocks =
      frame.blocks.zipWith (BlockRow.of input) decoded.blocks := by
    rw [← BlockRow.zipWith_of_extract hblocks, Array.extract_append_left, Array.extract_size]
  have halone : trailingIssues input.size (some input.size) = [] := by
    rw [trailingIssues, if_neg (Nat.lt_irrefl _)]
  have hbehind : trailingIssues (input.size + suffix.size) (some input.size) =
      [.trailingData input.size suffix.size] := by
    have := Array.size_pos_iff.2 hsuffix
    rw [trailingIssues, if_pos (by omega), Nat.add_sub_cancel_left]
  have hissues : (of (input ++ suffix) { frame := some frame } decoded).issues = issues := by
    simp only [issues, report, of, issuesOf, ScanOutcome.rows, Option.elim_some, Option.bind_some,
      hrows, hend, hcancelled, cancellationIssues, Array.size_append, halone, hbehind,
      List.append_nil]
  have hverdict : (of (input ++ suffix) { frame := some frame } decoded).verdict =
      .partiallyValid issues := by
    have hne : issues ≠ [] := List.append_ne_nil_of_right_ne_nil _ (List.cons_ne_nil _ _)
    rw [← hissues] at hne ⊢
    exact Verdict.ofFindings_of_ne_nil hne
  have hof : of (input ++ suffix) { frame := some frame } decoded =
      { report with
        inputSize := (input ++ suffix).size
        issues := (of (input ++ suffix) { frame := some frame } decoded).issues
        verdict := (of (input ++ suffix) { frame := some frame } decoded).verdict } := by
    simp only [report, of, ScanOutcome.rows, Option.elim_some, hrows]
  rwa [hissues, hverdict, Array.size_append] at hof

namespace FrameLayout

/-- The blocks of a frame end before it does. -/
theorem endOffset_le_of_mem_locate {frame : FrameLayout} {block : Block}
    (h : block ∈ frame.locate.blocks) : block.endOffset ≤ frame.encode.length := by
  obtain ⟨-, -, hend⟩ := BlockLayout.bounds_of_mem_locateAll h
  simp only [encode, remainder, List.length_append, Header.length_encode]
  omega

end FrameLayout

section Analysis

variable {σ : Type} {holds : σ → Prop} {env : Environment (StateM σ)}
  {decompressor : Decompressor}

/-- **Trailing data.** Where an input is one complete frame, more bytes behind it add the issue that
they are there, as the last one, and change nothing else in the report. -/
theorem analyze_append (hsteady : env.SteadyOn holds decompressor false) {options : Options}
    (htimeout : options.blockTimeout = none) {input suffix : Bytes} {frame : Frame}
    (hscan : (Id.run (scan (pure false) input)).frame = some frame)
    (hend : frame.endOffset = some input.size) (hsuffix : suffix ≠ #[]) (state state' : σ)
    (hstate : holds state) (hstate' : holds state') :
    let report := ((analyze env options input).run state).1
    let longer := ((analyze env options (input ++ suffix)).run state').1
    let issues := report.issues ++ [.trailingData input.size suffix.size]
    longer =
      { report with
        inputSize := input.size + suffix.size
        issues
        verdict := .partiallyValid issues } := by
  obtain ⟨layout, trailing, rfl, hinput⟩ := FrameLayout.exists_of_scan hscan hend
  have hlonger : (input ++ suffix).toList = layout.encode ++ (trailing ++ suffix.toList) := by
    rw [Array.toList_append, hinput, List.append_assoc]
  have hblocks : ∀ block ∈ layout.locate.blocks, block.endOffset ≤ input.size := by
    rw [← Option.some.inj hend]
    exact fun block => FrameLayout.endOffset_le_of_mem_locate
  -- what is found behind the header has the same content whatever trails it
  have hcontent : (layout.found (trailing ++ suffix.toList)).content decompressor options
      layout.header = (layout.found trailing).content decompressor options layout.header := rfl
  rw [run_analyze_eq_report hsteady htimeout input hstate,
    run_analyze_eq_report hsteady htimeout (input ++ suffix) hstate', report_eq_reportBy_standard,
    reportBy_of_encode .standard decompressor options hinput,
    reportBy_of_encode .standard decompressor options hlonger, hcontent]
  exact Report.of_append hend hblocks rfl hsuffix

/-- A frame behind itself. -/
theorem analyze_append_phrase :
    let input := FrameLayout.phraseBytes
    let env := Environment.ticking .backward
    let report := ((analyze env {} input).run 0).1
    let longer := ((analyze env {} (input ++ input)).run 7).1
    longer.rows = report.rows ∧ longer.contentSize = report.contentSize ∧
      longer.verdict = .partiallyValid (report.issues ++ [.trailingData 61 61]) := by
  intro input env report longer
  have hscan : (Id.run (scan (pure false) input)).frame = some FrameLayout.phrase.locate := by
    rw [FrameLayout.scan_phraseBytes]
  have hlonger : longer = _ := analyze_append (Environment.steadyOn_ticking .backward)
    (show ({} : Options).blockTimeout = none from rfl) hscan rfl (by decide : input ≠ #[]) 0 7
    .intro .intro
  rw [hlonger]
  exact ⟨rfl, rfl, rfl⟩

end Analysis

end Lz4Frame
