import SmallPascal.Proofs.TrackingExpressions

/-!
What the reading of a statement leaves behind, and where the statements lie that are read. An empty
statement has the place of the token that it stands before.
-/

namespace SmallPascal

namespace Parse

variable {cs : List Char} {m : Mark}

/-- From wherever it begins, the reader reads a statement that lies between there and where it
ends. -/
def TracksStmt (cs : List Char) (p : Parse Stmt) : Prop :=
  ∀ m, Tracks cs m (fun s m' => (Node.stmt s).Lies cs m.front m'.reach) p

/-! ### Assignments and calls -/

section

variable {low : Nat} {target name : Token} (place : target.span.Faithful cs)
  (begins : low ≤ target.span.start) (behind : target.span.stop ≤ m.front)

lemma tracks_assigned (target : Token) (type : Ty) :
    Tracks cs m (fun value m' => (Node.expr value).Lies cs m.reach m'.reach)
      (assigned target type) := by
  refine Tracks.expect.bind fun sign m₁ before₁ taken => ?_
  refine (tracks_expression m₁).bind fun value m₂ before₂ hvalue => ?_
  refine (tracks_coerce hvalue type taken.faithful _).imp fun e m₃ before₃ he => ?_
  exact he.mono (Nat.le_trans taken.reach taken.behind) before₃.reach

include place begins behind

lemma tracks_assignment (type : Ty) (slot : String) :
    Tracks cs m (fun s m' => (Node.stmt s).Lies cs low m'.reach) (assignment target type slot) := by
  refine (tracks_assigned target type).bind fun value m₁ _ hvalue => .pure ?_
  obtain ⟨low₁, order₁, high₁⟩ := hvalue.expr
  have forward := place.order
  have order := m.order
  refine .through rfl place hvalue.faithful nofun ?_ begins (by omega) high₁
  exact List.forall_mem_singleton.2 (hvalue.tight.mono (by omega) (Nat.le_refl _))

end

lemma tracks_path (name : Token) (type : Ty) : Tracks cs m
    (fun found m' => ∀ step ∈ found.1, (Node.expr step.index).Lies cs m.front m'.reach)
    (path name type) := by
  refine .extend (fun (found : List IndexStep × Ty) (m' : Mark) => ∀ step ∈ found.1,
    (Node.expr step.index).Lies cs m.front m'.reach)
    (fun before all step among => (all step among).mono (Nat.le_refl _) before.reach)
    (fun ⟨steps, type⟩ m₁ before₁ hsteps => ?_) (by simp)
  refine (tracks_bracketOf tracks_term name type).bind fun found m₂ before₂ hfound => ?_
  cases found with
  | none => exact .pure nofun
  | some found =>
    obtain ⟨hindex, -, reach⟩ := hfound found.1 found.2 rfl
    refine .pure fun longer same step among => ?_
    obtain rfl := Option.some.inj same
    rcases List.mem_append.1 among with old | new
    · exact (hsteps step old).mono (Nat.le_refl _) before₂.reach
    · obtain rfl := List.mem_singleton.1 new
      exact hindex.mono (Nat.le_trans m.order before₁.reach) reach

lemma tracks_storing {low : Nat} {name : Token} (symbol : Symbol) (place : name.span.Faithful cs)
    (begins : low ≤ name.span.start) (behind : name.span.stop ≤ m.front) :
    Tracks cs m (fun s m' => (Node.stmt s).Lies cs low m'.reach) (storing name symbol) := by
  refine Tracks.check.bind fun _ m₁ before₁ _ => ?_
  refine .ite (fun _ => (Tracks.fail place).stop) fun _ => ?_
  refine Tracks.check.bind fun _ m₂ before₂ _ => ?_
  have behind := Nat.le_trans behind (Nat.le_trans before₁.front before₂.front)
  refine .ite (fun _ => ?_) fun _ => tracks_assignment place begins behind _ _
  refine (tracks_path name symbol.type).bind fun ⟨steps, item⟩ m₃ before₃ hsteps => ?_
  refine (tracks_assigned name item).bind fun value m₄ _ hvalue => .pure ?_
  obtain ⟨low₁, order₁, high₁⟩ := hvalue.expr
  have forward := place.order
  have order := m₂.order
  have reach := before₃.reach
  refine .through rfl place hvalue.faithful nofun ?_ begins (by omega) high₁
  refine List.forall_mem_append.2 ⟨?_, List.forall_mem_singleton.2 ?_⟩
  · intro child direct
    obtain ⟨step, among, rfl⟩ := List.mem_map.1 direct
    exact (hsteps step among).mono (by omega) (by omega)
  · exact hvalue.tight.mono (by omega) (Nat.le_refl _)

lemma tracks_setResult {low : Nat} {name : Token} (symbol : Symbol) (id : RoutineId)
    (place : name.span.Faithful cs) (begins : low ≤ name.span.start)
    (behind : name.span.stop ≤ m.front) :
    Tracks cs m (fun s m' => (Node.stmt s).Lies cs low m'.reach) (setResult name symbol id) := by
  refine Tracks.check.bind fun _ m₁ before₁ _ => .ite (fun _ => .get fun s _ => ?_) fun _ =>
    .fail place
  split
  · exact tracks_assignment place begins (Nat.le_trans behind before₁.front) _ _
  · exact .fail place

lemma tracks_nameStatement : TracksStmt cs nameStatement := by
  intro m
  refine Tracks.next.bind fun name m₁ before₁ taken => ?_
  refine (Tracks.lookup taken.faithful).bind fun symbol m₂ before₂ _ => ?_
  have behind := Nat.le_trans taken.behind before₂.front
  split
  · refine (tracks_callOf tracks_term symbol taken.faithful behind).bind
      fun ⟨args, span⟩ m₃ _ found => .pure ?_
    obtain ⟨faithful, start, reach, hargs⟩ := found
    refine .whole faithful nofun ?_ (Nat.le_trans taken.front (Nat.le_of_eq start.symm)) reach
    intro child direct
    obtain ⟨arg, among, rfl⟩ := List.mem_map.1 direct
    exact hargs arg among
  · exact tracks_setResult symbol _ taken.faithful taken.front behind
  · exact .fail taken.faithful
  · exact tracks_storing symbol taken.faithful taken.front behind
  · exact tracks_storing symbol taken.faithful taken.front behind

/-! ### Structured statements -/

lemma tracks_condition (word : Kind) : TracksExpr cs (condition word) := fun m =>
  (tracks_expression m).bind fun _ _ _ he => .require he.faithful fun _ => .pure he

lemma tracks_loopVariable :
    Tracks cs m (fun name m' => name.Taken cs m m') loopVariable := by
  refine Tracks.expect.bind fun name m₁ before₁ taken => ?_
  refine (Tracks.lookup taken.faithful).bind fun _ m₂ before₂ _ => ?_
  refine .require taken.faithful fun _ => ?_
  exact .pure { taken with behind := Nat.le_trans taken.behind before₂.front }

lemma tracks_loopLimit : TracksExpr cs loopLimit := fun m =>
  (tracks_expression m).bind fun _ _ _ he => .require he.faithful fun _ => .pure he

lemma tracks_writelnStatement : TracksStmt cs writelnStatement := by
  intro m
  refine Tracks.next.bind fun keyword m₁ _ taken => ?_
  refine (tracks_argumentsOf tracks_term taken.faithful taken.behind).bind
    fun ⟨args, last⟩ m₂ _ found => .pure ?_
  obtain ⟨ends, order, reach, hargs⟩ := found
  refine .through rfl taken.faithful ends nofun ?_ taken.front (Nat.le_trans order reach) reach
  intro child direct
  obtain ⟨arg, among, rfl⟩ := List.mem_map.1 direct
  exact (hargs arg among).mono (Nat.le_trans taken.faithful.order taken.behind) (Nat.le_refl _)

section

variable {statement : Parse Stmt} (h : TracksStmt cs statement)

include h

lemma tracks_blockOf : TracksStmt cs (blockOf statement) := by
  intro m
  refine Tracks.expect.bind fun first m₁ _ begins => ?_
  refine Tracks.bind
    (Tracks.separated (fun low high s => (Node.stmt s).Lies cs low high)
      (fun lower higher hs => hs.mono lower higher) h)
    fun statements m₂ before₂ hstatements => ?_
  refine Tracks.expect.bind fun last m₃ before₃ ends => .pure ?_
  have order := begins.faithful.order
  have order' := ends.faithful.order
  obtain ⟨-, front₁, -, behind₁⟩ := id begins
  obtain ⟨-, front₂, reach₂, behind₂⟩ := id ends
  have forward := before₂.front
  have last' := m₃.order
  refine .through rfl begins.faithful ends.faithful nofun ?_ front₁ (by omega) (by omega)
  intro child direct
  obtain ⟨s, among, rfl⟩ := List.mem_map.1 direct
  exact (hstatements s among).mono (by omega) reach₂

lemma tracks_ifOf : TracksStmt cs (ifOf statement) := by
  intro m
  refine Tracks.next.bind fun keyword m₁ _ begins => ?_
  refine (tracks_condition .ifWord m₁).bind fun test m₂ before₂ htest => ?_
  refine Tracks.expect.bind fun thenWord m₃ before₃ hthen => ?_
  refine (h m₃).bind fun yes m₄ before₄ hyes => ?_
  have order := begins.faithful.order
  obtain ⟨-, front₁, -, behind₁⟩ := id begins
  obtain ⟨-, -, reach₃, behind₃⟩ := hthen
  have forward₂ := before₂.front
  have forward₃ := before₃.front
  obtain ⟨low₄, order₄, high₄⟩ := hyes.stmt
  refine Tracks.accept.bind fun more m₅ before₅ hmore => .ite (fun found => ?_) fun _ => .pure ?_
  · refine (h m₅).bind fun no m₆ before₆ hno => .pure ?_
    obtain ⟨elseWord, -, -, reach₅, behind₅⟩ := hmore found
    obtain ⟨low₆, order₆, high₆⟩ := hno.stmt
    have forward₄ := before₄.front
    have forward₅ := before₅.front
    refine .through rfl begins.faithful hno.faithful nofun ?_ front₁ (by omega) high₆
    refine List.forall_mem_cons.2 ⟨?_, List.forall_mem_cons.2 ⟨?_, List.forall_mem_singleton.2 ?_⟩⟩
    · exact htest.mono (by omega) (Nat.le_trans (by omega : m₂.reach ≤ no.span.start) order₆)
    · exact hyes.mono (by omega) (Nat.le_trans (by omega : m₄.reach ≤ no.span.start) order₆)
    · exact hno.tight.mono (by omega) (Nat.le_refl _)
  · have reach₅ := before₅.reach
    refine .through rfl begins.faithful hyes.faithful nofun ?_ front₁ (by omega) (by omega)
    refine List.forall_mem_cons.2 ⟨?_, List.forall_mem_singleton.2 ?_⟩
    · exact htest.mono (by omega) (Nat.le_trans (by omega : m₂.reach ≤ yes.span.start) order₄)
    · exact hyes.tight.mono (by omega) (Nat.le_refl _)

lemma tracks_whileOf : TracksStmt cs (whileOf statement) := by
  intro m
  refine Tracks.next.bind fun keyword m₁ _ begins => ?_
  refine (tracks_condition .whileWord m₁).bind fun test m₂ before₂ htest => ?_
  refine Tracks.expect.bind fun doWord m₃ before₃ hdo => ?_
  refine (h m₃).bind fun body m₄ _ hbody => .pure ?_
  have order := begins.faithful.order
  obtain ⟨-, front₁, -, behind₁⟩ := id begins
  obtain ⟨-, -, reach₃, behind₃⟩ := hdo
  have forward₂ := before₂.front
  have forward₃ := before₃.front
  obtain ⟨low₄, order₄, high₄⟩ := hbody.stmt
  refine .through rfl begins.faithful hbody.faithful nofun ?_ front₁ (by omega) high₄
  refine List.forall_mem_cons.2 ⟨?_, List.forall_mem_singleton.2 ?_⟩
  · exact htest.mono (by omega) (Nat.le_trans (by omega : m₂.reach ≤ body.span.start) order₄)
  · exact hbody.tight.mono (by omega) (Nat.le_refl _)

lemma tracks_forOf : TracksStmt cs (forOf statement) := by
  intro m
  refine Tracks.next.bind fun keyword m₁ _ begins => ?_
  refine tracks_loopVariable.bind fun name m₂ before₂ hname => ?_
  refine (tracks_assignment hname.faithful hname.front hname.behind _ _).bind
    fun start m₃ before₃ hstart => ?_
  refine Tracks.expect.bind fun toWord m₄ before₄ hto => ?_
  refine (tracks_loopLimit m₄).bind fun limit m₅ before₅ hlimit => ?_
  refine Tracks.expect.bind fun doWord m₆ before₆ hdo => ?_
  refine (h m₆).bind fun body m₇ _ hbody => .pure ?_
  have order := begins.faithful.order
  obtain ⟨-, front₁, -, behind₁⟩ := id begins
  obtain ⟨-, -, reach₄, behind₄⟩ := hto
  obtain ⟨-, -, reach₆, behind₆⟩ := hdo
  have forward₂ := before₂.front
  have forward₃ := before₃.front
  have forward₄ := before₄.front
  have forward₅ := before₅.front
  have forward₆ := before₆.front
  obtain ⟨low₇, order₇, high₇⟩ := hbody.stmt
  refine .through rfl begins.faithful hbody.faithful nofun ?_ front₁ (by omega) high₇
  refine List.forall_mem_cons.2 ⟨?_, List.forall_mem_cons.2 ⟨?_, List.forall_mem_singleton.2 ?_⟩⟩
  · exact hstart.mono (by omega) (Nat.le_trans (by omega : m₃.reach ≤ body.span.start) order₇)
  · exact hlimit.mono (by omega) (Nat.le_trans (by omega : m₅.reach ≤ body.span.start) order₇)
  · exact hbody.tight.mono (by omega) (Nat.le_refl _)

lemma tracks_statementOf : TracksStmt cs (statementOf statement) := by
  intro m
  refine Tracks.peek.bind fun token m₁ before₁ ⟨place, front, reach⟩ => ?_
  have later {p : Parse Stmt} (hp : TracksStmt cs p) :
      Tracks cs m₁ (fun s m' => (Node.stmt s).Lies cs m.front m'.reach) p :=
    (hp m₁).imp fun _ _ _ hs => hs.mono before₁.front (Nat.le_refl _)
  split
  · exact later (tracks_blockOf h)
  · exact later (tracks_ifOf h)
  · exact later (tracks_whileOf h)
  · exact later (tracks_forOf h)
  · exact later tracks_writelnStatement
  · exact later tracks_nameStatement
  · exact .pure (.whole place nofun nofun front reach)

end

lemma tracks_statementWithin : ∀ bound, TracksStmt cs (statementWithin bound)
  | 0 => fun _ => .exhausted
  | bound + 1 => fun _ s => tracks_statementOf (tracks_statementWithin bound) _ s

lemma tracks_statement : TracksStmt cs statement := fun _ =>
  Tracks.budget.bind fun bound m₁ before _ => (tracks_statementWithin bound m₁).imp fun _ _ _ hs =>
    hs.mono before.front (Nat.le_refl _)

lemma tracks_block : TracksStmt cs block := tracks_blockOf tracks_statement

end Parse

end SmallPascal
