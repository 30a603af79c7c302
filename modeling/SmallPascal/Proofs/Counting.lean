import SmallPascal.Proofs.Targets

/-! Loops that count. As the body of such a loop does not set the variable, the loop is no more than
its body run for one integer after the other, from the first to the last. -/

namespace SmallPascal

open Steps

/-! ### Ranges of integers -/

namespace Integer

/-- The integers from the first to the last, in order. -/
def upTo (first last : Integer) : List Integer :=
  (List.range (last.toInt - first.toInt + 1).toNat).map fun k : Nat => Int64.ofInt (first.toInt + k)

/-- Where a count from the first to the last ends: one above the last, if there is an integer above
it. -/
def past (first last : Integer) : Integer :=
  if last.toInt < first.toInt then first else (add? last 1).getD last

variable {first last : Integer}

lemma toInt_ofInt_add (last : Integer) {k : Nat} (h : first.toInt + k ≤ last.toInt) :
    (Int64.ofInt (first.toInt + k)).toInt = first.toInt + k := by
  have low := least_le_toInt first
  have high := toInt_le_greatest last
  have inRange : least ≤ first.toInt + k ∧ first.toInt + k ≤ greatest := by omega
  exact ofInt?_eq_some_iff.1 (if_pos inRange)

lemma mem_upTo {n : Integer} :
    n ∈ first.upTo last ↔ first.toInt ≤ n.toInt ∧ n.toInt ≤ last.toInt := by
  unfold upTo
  rw [List.mem_map]
  constructor
  · rintro ⟨k, among, rfl⟩
    have below := List.mem_range.1 among
    rw [toInt_ofInt_add last (by omega)]
    omega
  · rintro ⟨low, high⟩
    refine ⟨(n.toInt - first.toInt).toNat, List.mem_range.2 (by omega), ?_⟩
    have offset : first.toInt + ((n.toInt - first.toInt).toNat : Int) = n.toInt := by omega
    rw [offset, Int64.ofInt_toInt]

lemma upTo_of_lt (h : last.toInt < first.toInt) : first.upTo last = [] := by
  have none : (last.toInt - first.toInt + 1).toNat = 0 := by omega
  rw [upTo, none]
  rfl

lemma toInt_next {n next : Integer} (h : add? n 1 = some next) : next.toInt = n.toInt + 1 :=
  add?_eq_some_iff.1 h

lemma add?_one_eq_none {n : Integer} : add? n 1 = none ↔ n.toInt = greatest := by
  have high := toInt_le_greatest n
  have low := least_le_toInt n
  have one : (1 : Integer).toInt = 1 := rfl
  unfold add?
  rw [ofInt?_eq_none_iff, one]
  unfold least greatest at *
  omega

lemma upTo_cons {next : Integer} (h : first.toInt ≤ last.toInt) (above : add? first 1 = some next) :
    first.upTo last = first :: next.upTo last := by
  have succ := toInt_next above
  have count :
    (last.toInt - first.toInt + 1).toNat = (last.toInt - next.toInt + 1).toNat + 1 := by omega
  unfold upTo
  rw [count, List.range_succ_eq_map, List.map_cons, List.map_map]
  congr 1
  · simp [Int64.ofInt_toInt]
  · refine List.map_congr_left fun k _ => ?_
    have same : first.toInt + ((k + 1 : Nat) : Int) = next.toInt + (k : Int) := by omega
    exact congrArg Int64.ofInt same

lemma upTo_greatest (h : first.toInt ≤ last.toInt) (top : add? first 1 = none) :
    last = first ∧ first.upTo last = [first] := by
  have greatest := add?_one_eq_none.1 top
  have high := toInt_le_greatest last
  have same : last = first := Int64.toInt_inj.1 (by omega)
  subst same
  have once : (last.toInt - last.toInt + 1).toNat = 1 := by omega
  refine ⟨rfl, ?_⟩
  rw [upTo, once]
  simp [Int64.ofInt_toInt]

lemma past_of_lt (h : last.toInt < first.toInt) : first.past last = first := if_pos h

lemma past_next {next : Integer} (h : first.toInt ≤ last.toInt) (above : add? first 1 = some next) :
    next.past last = first.past last := by
  have succ := toInt_next above
  unfold past
  rw [if_neg (show ¬ last.toInt < first.toInt by omega)]
  split
  next ended =>
    have same : last = first := Int64.toInt_inj.1 (by omega)
    rw [same, above]
    rfl
  next => rfl

lemma toInt_past (h : first.toInt ≤ last.toInt) (below : last.toInt < greatest) :
    (first.past last).toInt = last.toInt + 1 := by
  rw [past, if_neg (by omega)]
  rcases above : add? last 1 with _ | next
  · have := add?_one_eq_none.1 above
    omega
  · exact toInt_next above

lemma past_top (h : first.toInt ≤ last.toInt) (top : last.toInt = greatest) :
    first.past last = last := by
  rw [past, if_neg (by omega), add?_one_eq_none.2 top]
  rfl

lemma past_greatest (h : first.toInt ≤ last.toInt) (top : add? first 1 = none) :
    first.past last = first := by
  obtain ⟨rfl, -⟩ := upTo_greatest h top
  exact past_top h (add?_one_eq_none.1 top)

end Integer

/-! ### Setting what is there -/

lemma Store.set_of_get? {store : Store} {name : String} {value : Value}
    (h : store.get? name = some value) : store.set name value = store := by
  obtain ⟨entries⟩ := store
  unfold get? at h
  have same : setEntry name value entries = entries := by
    induction entries with
    | nil => simp at h
    | cons entry rest ih =>
      obtain ⟨other, there⟩ := entry
      unfold setEntry
      split
      next found =>
        have found : other = name := found
        have stored : there = value := by simpa [found] using h
        rw [found, stored]
      next apart =>
        have apart : other ≠ name := apart
        have later : (rest.find? fun entry => entry.1 == name).map (·.2) = some value := by
          simpa [apart] using h
        rw [ih later]
  exact congrArg Store.mk same

/-! ### Turns of a loop -/

namespace Exec

/-- Runs `body` for one value of `name` after the other. -/
def forEach (name : String) (body : Exec Unit) : List Integer → Exec Unit
  | [] => pure ()
  | n :: rest => do
    set name (.integer n)
    body
    forEach name body rest

variable {name : String} {body : Exec Unit} {m : Machine}

lemma set_of_get? {value : Value} (there : m.store.get? name = some value) :
    set name value m = (.ok (), m) := by
  change (Except.ok (), { m with store := m.store.set name value }) = _
  rw [Store.set_of_get? there]

lemma readInteger_of_get? {n : Integer} (there : m.store.get? name = some (.integer n))
    (span : Span) :
    readInteger name span m = (.ok n, m) := by
  unfold readInteger eval
  dsimp only
  rw [there]
  rfl

lemma forEach_cons (n : Integer) (rest : List Integer) (after : Exec Unit) (m : Machine) :
    (do forEach name body (n :: rest); after) m =
      (do body; forEach name body rest; after)
      { m with store := m.store.set name (.integer n) } := by
  simp only [forEach, bind_assoc]
  exact bind_of_ok rfl

/-- Only the body can stop the turns, in a store where the variable has one of the values. -/
lemma forEach_error {values : List Integer} {stop : Stop} {n : Machine}
    (stopped : forEach name body values m = (.error stop, n)) :
    ∃ value ∈ values, ∃ m', m'.store.get? name = some (.integer value) ∧
      body m' = (.error stop, n) := by
  induction values generalizing m with
  | nil => cases stopped
  | cons value rest ih =>
    have turn : (body >>= fun _ => forEach name body rest)
        { m with store := m.store.set name (.integer value) } = (.error stop, n) := stopped
    rw [bind_apply] at turn
    rcases ran : body { m with store := m.store.set name (.integer value) } with ⟨stop' | _, m'⟩ <;>
      rw [ran] at turn
    · exact ⟨value, List.mem_cons_self, _, Store.get?_set_self _ _ _, ran.trans turn⟩
    · obtain ⟨later, among, there⟩ := ih turn
      exact ⟨later, List.mem_cons_of_mem _ among, there⟩

/-- **Counting is taking turns.** If the body keeps the variable, a loop that counts it from the
first to the last integer runs the body for each of them, and leaves the variable past the last. -/
theorem countTo_eq_forEach (keeps : ∀ m, (body m).2.store.get? name = m.store.get? name)
    (last : Integer) (span : Span) (bound : Nat) (first : Integer) (m : Machine)
    (enough : (first.upTo last).length < bound) :
    (do set name (.integer first); countTo name last span body bound) m =
      (do forEach name body (first.upTo last); set name (.integer (first.past last))) m := by
  induction bound generalizing first m with
  | zero => exact absurd enough (Nat.not_lt_zero _)
  | succ bound ih =>
    have there := m.store.get?_set_self name (.integer first)
    rw [bind_of_ok (show set name (.integer first) m = (.ok (), _) from rfl), countTo,
      bind_of_ok (readInteger_of_get? there span)]
    rcases Int.lt_or_le last.toInt first.toInt with ended | turn
    · rw [if_neg (by omega), Integer.upTo_of_lt ended, Integer.past_of_lt ended]
      rfl
    rw [if_pos turn]
    have kept := keeps { m with store := m.store.set name (.integer first) }
    rw [there] at kept
    rcases above : Integer.add? first 1 with _ | next
    · -- the variable cannot be counted further, and so it stays
      rw [(Integer.upTo_greatest turn above).2, forEach_cons, bind_apply, bind_apply,
        Integer.past_greatest turn above]
      rcases ran : body { m with store := m.store.set name (.integer first) } with ⟨stop | _, m'⟩
      · rfl
      · rw [ran] at kept
        dsimp only
        rw [bind_of_ok (readInteger_of_get? kept span), above]
        exact (set_of_get? kept).symm
    · rw [Integer.upTo_cons turn above] at enough ⊢
      rw [forEach_cons, bind_apply, bind_apply, ← Integer.past_next turn above]
      rcases ran : body { m with store := m.store.set name (.integer first) } with ⟨stop | _, m'⟩
      · rfl
      · rw [ran] at kept
        dsimp only
        rw [bind_of_ok (readInteger_of_get? kept span), above]
        exact ih next m' (Nat.lt_of_succ_lt_succ enough)

end Exec

/-! ### Loops -/

section

variable {name : String} {start body : Stmt} {limit : Expr} {span : Span}
    {context : Context} {bound : Nat}
  {m m₁ : Machine} {first last : Integer} {output : Output}

lemma Stmt.exec_forTo (started : start.exec context bound m = (.ok (), m₁))
    (limited : limit.eval context m₁.store m₁.output = (.ok (.integer last), output)) :
    (Stmt.forTo name start limit body span).exec context bound m =
      Exec.countTo name last span (body.exec context bound) bound { m₁ with output } := by
  have evaluated : Exec.eval (fun store => limit.eval context store) m₁ =
      (.ok (.integer last), { m₁ with output }) := Exec.eval_of limited
  rw [Stmt.exec, bind_of_ok started, bind_of_ok evaluated]
  exact bind_of_ok rfl

/-- **A loop that counts visits exactly its range.** Suppose that the start of the loop leaves the
variable at an integer, that the limit, evaluated after it, comes to an integer, that the body does
not set the variable, and that the bound on the turns is not met. Then the loop runs the body for
each integer from the first to the last, in order, with the variable set to it; as long as no body
stops, it ends, with the variable at the first integer if there are none in the range, at the one
above the last if there is one, and otherwise at the greatest. If it stops, some turn of the body
has stopped so. -/
theorem for_visits_range (untouched : name ∉ body.targets)
    (started : start.exec context bound m = (.ok (), m₁))
    (assigned : m₁.store.get? name = some (.integer first))
    (limited : limit.eval context m₁.store m₁.output = (.ok (.integer last), output))
    (enough : (first.upTo last).length < bound) :
    let loop := (Stmt.forTo name start limit body span).exec context bound
    let turns := Exec.forEach name (body.exec context bound) (first.upTo last)
    loop m = (do turns; Exec.set name (.integer (first.past last))) { m₁ with output } ∧
    (∀ n, turns { m₁ with output } = (.ok (), n) → ∃ n', loop m = (.ok (), n') ∧
      (last.toInt < first.toInt → n'.store.get? name = some (.integer first)) ∧
      (first.toInt ≤ last.toInt → last.toInt < Integer.greatest →
        ∃ next, next.toInt = last.toInt + 1 ∧ n'.store.get? name = some (.integer next)) ∧
      (last.toInt = Integer.greatest → n'.store.get? name = some (.integer last))) ∧
    ∀ stop n, loop m = (.error stop, n) → ∃ value, first.toInt ≤ value.toInt ∧
      value.toInt ≤ last.toInt ∧ ∃ m', m'.store.get? name = some (.integer value) ∧
        body.exec context bound m' = (.error stop, n) := by
  intro loop turns
  have keeps (m) := Stmt.get?_exec untouched context bound m
  -- the variable is set already when the first turn begins
  have same : loop m = (do turns; Exec.set name (.integer (first.past last)))
    { m₁ with output } := by
    rw [← Exec.countTo_eq_forEach keeps last span bound first _ enough,
      bind_of_ok (Exec.set_of_get? (m := { m₁ with output }) assigned)]
    exact Stmt.exec_forTo started limited
  refine ⟨same, fun n ended => ?_, fun stop n stopped => ?_⟩
  · rw [same, bind_of_ok ended]
    refine ⟨{ n with store := n.store.set name (.integer (first.past last)) }, rfl, fun empty => ?_,
      fun turn below => ?_, fun top => ?_⟩
    · rw [Store.get?_set_self, Integer.past_of_lt empty]
    · exact ⟨_, Integer.toInt_past turn below, Store.get?_set_self _ _ _⟩
    · have turn : first.toInt ≤ last.toInt := top ▸ Integer.toInt_le_greatest first
      rw [Store.get?_set_self, Integer.past_top turn top]
  · rw [same, bind_apply] at stopped
    rcases ran : turns { m₁ with output } with ⟨stop' | _, n'⟩ <;> rw [ran] at stopped
    · obtain ⟨value, among, turn⟩ := Exec.forEach_error (ran.trans stopped)
      obtain ⟨low, high⟩ := Integer.mem_upTo.1 among
      exact ⟨value, low, high, turn⟩
    · cases stopped

end

/-- A loop up to the greatest integer, in which a procedure is called that sets the name of the
variable in its own store. -/
theorem for_visits_range_top :
    let p : Routine :=
      ⟨"p", [], none, [], .assign "i" (.literal (.integer 0) .integer .nowhere) .nowhere, .nowhere⟩
    let context : Context := ⟨[p], Routine.run [p] 9 9⟩
    let start : Stmt :=
      .assign "i" (.literal (.integer 9223372036854775806) .integer .nowhere) .nowhere
    let limit : Expr := .literal (.integer 9223372036854775807) .integer .nowhere
    let body : Stmt :=
      .block [.call 0 "p" [] .nowhere, .writeln [.var "i" .integer .nowhere] .nowhere] .nowhere
    "i" ∉ body.targets ∧
    ∃ n, (Stmt.forTo "i" start limit body .nowhere).exec context 9 ⟨.empty, #[]⟩ = (.ok (), n) ∧
      n.store.get? "i" = some (.integer 9223372036854775807) ∧
      n.output = #["9223372036854775806", "9223372036854775807"] := by
  intro p context start limit body
  have untouched : "i" ∉ body.targets := by decide +kernel
  let m₁ : Machine := ⟨⟨[("i", .integer 9223372036854775806)]⟩, #[]⟩
  let n : Machine :=
    ⟨⟨[("i", .integer 9223372036854775807)]⟩, #["9223372036854775806", "9223372036854775807"]⟩
  have enough : (Integer.upTo 9223372036854775806 9223372036854775807).length < 9 := by
    decide +kernel
  obtain ⟨same, -, -⟩ := @for_visits_range "i" start body limit .nowhere context 9 ⟨.empty, #[]⟩ m₁
    9223372036854775806 9223372036854775807 #[] untouched rfl rfl rfl enough
  exact ⟨untouched, n, same.trans rfl, rfl, rfl⟩

end SmallPascal
