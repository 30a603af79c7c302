import SmallPascal.Proofs.Discipline

/-!
Well-typed statements under a discipline: what holds of the store, as long as it survives the writes
that can be seen from the part being run, holds after every statement.
-/

namespace SmallPascal

open Steps

variable {allowed : RuntimeFault → Prop} {inv : Store → Prop}

namespace Discipline

variable {d : Discipline} {sight : Sight} {context : Context}

/-- What holds of the store makes it serve, and survives writes to what can be seen. -/
structure Guards (d : Discipline) (sight : Sight) (context : Context)
    (inv : Store → Prop) : Prop where
  serves : ∀ store, inv store → d.Serves sight context store
  place : ∀ store name type value, inv store → sight.place name type → d.holds type value →
    inv (store.set name value)
  result : ∀ store type value, inv store → sight.result = some type → d.holds type value →
    inv (store.set resultSlot value)

lemma Guards.eval (guards : d.Guards sight context inv) (sound : d.Sound) (data : sight.Data)
    {e : Expr} (h : e.WellTyped sight) :
    Exec.Safe d.allows inv (d.holds e.type) (Exec.eval fun store => e.eval context store) :=
  .eval fun store kept => sound.eval data (guards.serves store kept) h

lemma Guards.evalAll (guards : d.Guards sight context inv) (sound : d.Sound) (data : sight.Data)
    {args : List Expr} (h : ∀ arg ∈ args, arg.WellTyped sight) :
    Exec.Safe d.allows inv (List.Forall₂ (fun arg value => d.holds arg.type value) args)
      (Exec.eval fun store => Expr.evalAll context store args) :=
  .eval fun store kept =>
    Upholds.evalAll fun arg among => sound.eval data (guards.serves store kept) (h arg among)

lemma Guards.holds (guards : d.Guards sight context inv) (sound : d.Sound) (data : sight.Data)
    {e : Expr} (h : e.WellTyped sight) (boolean : e.type = .boolean) :
    Exec.Safe d.allows inv (fun _ => True) (Exec.eval fun store => e.holds context store) := by
  refine .eval fun store kept => ?_
  refine (sound.eval data (guards.serves store kept) h).bind fun value hvalue => ?_
  rw [boolean] at hvalue
  rcases sound.boolean hvalue with ⟨b, rfl⟩ | refused
  · exact .pure trivial
  · cases value with
    | boolean => exact .pure trivial
    | _ => exact .fail refused

lemma offsets_safe (sound : d.Sound) (data : sight.Data) {store : Store}
    (serves : d.Serves sight context store) {type last : Ty} {path : List IndexStep}
    (h : PathTyped sight type path last) :
    Eval.Safe d.allows (fun found => found.map Prod.snd = path.map (·.item))
      (offsets context store path) := by
  induction h with
  | here => exact .pure rfl
  | into index integer _ ih =>
    refine (sound.eval data serves index).bind fun n hn => ?_
    rw [integer] at hn
    refine (Upholds.ofExcept (sound.offset hn _ _)).bind fun offset _ => ?_
    exact ih.bind fun more hmore => .pure (by rw [List.map_cons, List.map_cons, hmore])

lemma Guards.readInteger (guards : d.Guards sight context inv) (sound : d.Sound) {name : String}
    (seen : sight.place name .integer) (span : Span) :
    Exec.Safe d.allows inv (fun _ => True) (Exec.readInteger name span) := by
  refine .readInteger fun store kept => ?_
  have found := (guards.serves store kept).place name .integer seen
  rcases e : store.get? name with _ | value <;> rw [e] at found
  · exact found
  · exact sound.integer found

/-- **Statements keep a discipline**, and whatever guards it. -/
theorem Guards.exec (guards : d.Guards sight context inv) (sound : d.Sound) (data : sight.Data)
    (bound : Nat) {s : Stmt} (h : s.WellTyped sight) :
    Exec.Safe d.allows inv (fun _ => True) (s.exec context bound) := by
  induction h with
  | block _ ih => exact .execAll ih
  | ifThen condition boolean _ ih =>
    refine (guards.holds sound data condition boolean).bind fun b _ => ?_
    cases b with
    | true => exact ih
    | false => exact .pure trivial
  | ifThenElse condition boolean _ _ yes no =>
    refine (guards.holds sound data condition boolean).bind fun b _ => ?_
    cases b with
    | true => exact yes
    | false => exact no
  | whileDo condition boolean _ ih =>
    exact .repeatWhile trivial (guards.holds sound data condition boolean) ih bound
  | forTo seen _ limit integer _ start body =>
    refine start.bind fun _ _ => ?_
    refine (guards.eval sound data limit).bind fun n hn => ?_
    rw [integer] at hn
    refine (Upholds.eval fun _ _ => .ofExcept (sound.integer hn)).bind fun last _ => ?_
    refine .countTo trivial (guards.readInteger sound seen _) (fun store m kept => ?_) body bound
    exact guards.place store _ .integer _ kept seen (sound.shape trivial)
  | writeln args =>
    exact (guards.evalAll sound data args).bind fun _ _ => .writeLine _
  | assign seen value agree =>
    refine (guards.eval sound data value).bind fun v hv => ?_
    exact .set fun store kept => guards.place store _ _ v kept seen (sound.agree agree hv)
  | result set value agree =>
    refine (guards.eval sound data value).bind fun v hv => ?_
    exact .set fun store kept => guards.result store _ v kept set (sound.agree agree hv)
  | assignElement seen _ path value agree =>
    refine (Upholds.eval fun store kept =>
      offsets_safe sound data (guards.serves store kept) path).bind fun found hfound => ?_
    refine (guards.eval sound data value).bind fun v hv => ?_
    refine .writeElement fun store kept => ?_
    have there := (guards.serves store kept).place _ _ seen
    rcases e : store.get? _ with _ | target <;> rw [e] at there
    · exact there
    · -- the elements made on the way stay, even if the path is refused
      have leads := path.leads
      rw [← hfound] at leads
      obtain ⟨held, refused⟩ := sound.write leads (data.place _ _ seen) there (sound.agree agree hv)
      exact ⟨guards.place store _ _ _ kept seen held, refused⟩
  | @call id name params args span seen typed agree =>
    have answers store (kept : inv store) := (guards.serves store kept).callee id _ seen
    unfold Stmt.exec
    rcases e : context.routines[id]? with _ | routine <;> rw [e] at answers
    · exact fun machine kept => ⟨kept, answers machine.store kept⟩
    · have run : Exec.Safe d.allows inv (d.Answers none) (Exec.eval fun store => do
          context.run routine (← Expr.evalAll context store args) store) := by
        refine .eval fun store kept => ?_
        have serves := guards.serves store kept
        have passed := Upholds.evalAll fun arg among => sound.eval data serves (typed arg among)
        refine passed.bind fun values hvalues => ?_
        exact answers store kept values (sound.fills agree hvalues)
      exact run.bind fun _ _ => .pure trivial
  | skip => exact .pure trivial

end Discipline

end SmallPascal
