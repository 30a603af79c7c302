import SmallPascal.Proofs.Safety
import SmallPascal.Proofs.TrackingPrograms

/-! The spans of a program and of what is wrong with it: each lies in the text and begins at the
line and the column that it says, and every node of a program covers what stands inside it. -/

namespace SmallPascal

open Parse

namespace Program

variable {text : String} {program : Program}

lemma faithful_of_refused {d : Diagnostic} (refused : ofText text = .error d) :
    d.span.Faithful text.toList := by
  unfold ofText at refused
  obtain ⟨d', t, read, place, -⟩ | ⟨found, t, read, -⟩ :=
      program_outcome (sound_ofText text true) <;> rw [read] at refused <;> cases refused
  exact place

lemma faithful_of_failed {bound : Nat} {d : Diagnostic}
    (failed : (interpret text bound).ending = .failed d) : d.span.Faithful text.toList := by
  unfold interpret at failed
  rcases read : ofText text with refusal | program <;> rw [read] at failed <;> dsimp only at failed
  · cases failed
    exact faithful_of_refused read
  · rcases ran :
      program.run bound with ⟨(⟨fault, span⟩ | _) | _, machine⟩ <;> rw [ran] at failed <;>
      cases failed
    obtain ⟨node, among, place⟩ := exists_node_of_run (congrArg Prod.fst ran)
    rw [← place]
    exact ((fine_of_ofText read).nodes node among).faithful

/-- **All spans are true to the text**: those of the nodes and of the routines of an accepted
program, of whatever keeps a text from being accepted, and of all faults of its run; and every node
covers the nodes inside it. -/
theorem spans_faithful (text : String) :
    (∀ program, ofText text = .ok program →
      (∀ node ∈ program.nodes, node.span.Faithful text.toList ∧
        ∀ child ∈ node.children, node.span.Covers child.span) ∧
      ∀ routine ∈ program.routines, routine.span.Faithful text.toList) ∧
    (∀ d, ofText text = .error d → d.span.Faithful text.toList) ∧
    ∀ bound d, (interpret text bound).ending = .failed d → d.span.Faithful text.toList := by
  refine ⟨fun program accepted => ?_, fun _ => faithful_of_refused, fun _ _ => faithful_of_failed⟩
  obtain ⟨nodes, routines, -⟩ := fine_of_ofText accepted
  exact ⟨fun node among => ⟨(nodes node among).faithful, (nodes node among).covers⟩, routines⟩

def cutShort : String := "program P;\n  begin if"

theorem spans_faithful_tally :
    (∃ program, ofText tally = .ok program ∧
      (∀ node ∈ program.nodes, node.span.Faithful tally.toList ∧
        ∀ child ∈ node.children, node.span.Covers child.span) ∧
      ∀ routine ∈ program.routines, routine.span.Faithful tally.toList) ∧
    (∃ d, (interpret tally 9).ending = .failed d ∧ d.span.Faithful tally.toList) ∧
    ∃ d, ofText cutShort = .error d ∧ d.span.Faithful cutShort.toList := by
  obtain ⟨program, accepted, -, ran⟩ := tally_accepted
  refine ⟨⟨program, accepted, (spans_faithful tally).1 program accepted⟩, ?_, ?_⟩
  · have failed := failed_of_run accepted ran
    exact ⟨_, failed, (spans_faithful tally).2.2 9 _ failed⟩
  · have checked : (ofText cutShort).toOption.isNone := by decide +kernel
    rcases refused : ofText cutShort with d | program <;> rw [refused] at checked
    · exact ⟨d, rfl, (spans_faithful cutShort).2.1 d refused⟩
    · cases checked

end Program

end SmallPascal
