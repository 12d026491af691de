/-
# One task after the other

An agenda is a stack: what a task causes comes in front of what was behind the task. A
machine that starts with some tasks in front of `rest`, and goes on until nothing but
`rest` is left, gives each of the tasks its turn, in order, and whatever one of them causes
is done before it is the turn of the next. The machines from the turn of a task on are its
*course*.

Key definitions: `Machine.Busy`, `Courses`.
Key theorems: `Language.Passes.courses`, `Courses.split`, `Language.Passes.unique`.
-/
import LiveRules.Proofs.Firing.Idling
import LiveRules.Proofs.Machine.Strides

namespace LiveRules

variable {κ σ : Type} {L : Language κ σ}

/-! ### Passing through machines -/

namespace Language.Passes

variable {m n n' : Machine κ σ} {ms ms' : List (Machine κ σ)}

/-- Machines that are passed through are gone on to. -/
theorem resumes (h : L.Passes m ms n) : Resumes L m ms.reverse n := by
  have key : ∀ {m₀ later}, Resumes L m₀ later m → Resumes L m₀ (ms.reverse ++ later) n := by
    induction h with
    | done m => exact fun h => h
    | @step m n ms _ ih =>
      intro m₀ later h
      rw [List.reverse_cons, List.append_assoc]
      exact ih h.step
  simpa using key .here

theorem mem (h : L.Passes m ms n) (hne : m ≠ n) : m ∈ ms := by
  cases h with
  | done => exact absurd rfl hne
  | step => exact List.mem_cons_self

/-- There is one way to where a property comes to hold for the first time. -/
theorem unique {P : Machine κ σ → Prop} (h : L.Passes m ms n) (h' : L.Passes m ms' n') (hms : ∀ q ∈ ms, ¬ P q)
    (hms' : ∀ q ∈ ms', ¬ P q) (hn : P n) (hn' : P n') : ms' = ms ∧ n' = n := by
  induction h generalizing ms' with
  | done m =>
    cases h' with
    | done => exact ⟨rfl, rfl⟩
    | step => exact absurd hn (hms' _ List.mem_cons_self)
  | @step m n ms _ ih =>
    cases h' with
    | done => exact absurd hn' (hms _ List.mem_cons_self)
    | step h' =>
      obtain ⟨rfl, rfl⟩ := ih h' (fun q hq => hms q (List.mem_cons_of_mem _ hq))
        (fun q hq => hms' q (List.mem_cons_of_mem _ hq)) hn
      exact ⟨rfl, rfl⟩

/-- What a step leaves holds wherever it is passed through, and at the end. -/
theorem keeps {P : Machine κ σ → Prop} (h : L.Passes m ms n) (hm : P m) (hstep : ∀ q ∈ ms, P q → P (L.step q)) :
    (∀ q ∈ ms, P q) ∧ P n := by
  induction h with
  | done m => exact ⟨by simp, hm⟩
  | @step m n ms _ ih =>
    obtain ⟨hms, hn⟩ := ih (hstep m List.mem_cons_self hm) fun q hq => hstep q (List.mem_cons_of_mem _ hq)
    exact ⟨List.forall_mem_cons.mpr ⟨hm, hms⟩, hn⟩

end Language.Passes

/-- Machines on a trail are passed through. -/
theorem Language.passes_trail (L : Language κ σ) (n : Nat) (m : Machine κ σ) :
    L.Passes m (L.trail n [] m).1.reverse (L.trail n [] m).2 := by
  have key : ∀ (n : Nat) (past : List (Machine κ σ)) (m : Machine κ σ),
      ∃ ms, (L.trail n past m).1 = ms.reverse ++ past ∧ L.Passes m ms (L.trail n past m).2 := by
    intro n
    induction n with
    | zero => exact fun past m => ⟨[], rfl, .done m⟩
    | succ n ih =>
      intro past m
      obtain ⟨ms, htrail, hpasses⟩ := ih (m :: past) (L.step m)
      exact ⟨m :: ms, by simpa [Language.trail] using htrail, .step hpasses⟩
  obtain ⟨ms, htrail, hpasses⟩ := key n [] m
  rwa [htrail, List.append_nil, List.reverse_reverse]

/-- Tasks that bind are passed through. -/
theorem Works.binding {m n : Machine κ σ} (h : Works L m n) :
    ∃ ms, L.Passes m ms n ∧ ∀ q ∈ ms, ∃ u ∈ q.agenda, u.isBinding = true := by
  induction h with
  | done m => exact ⟨[], .done m, by simp⟩
  | @step m _ u rest hm hu _ ih =>
    obtain ⟨ms, hpasses, hms⟩ := ih
    refine ⟨m :: ms, .step hpasses, List.forall_mem_cons.mpr ⟨⟨u, ?_, hu⟩, hms⟩⟩
    rw [hm]
    exact List.mem_cons_self

/-! ### Courses -/

/-- Something is still to be done before `rest`. -/
def Machine.Busy (rest : List (Task κ)) (m : Machine κ σ) : Prop :=
  ∃ front, front ≠ [] ∧ m.agenda = front ++ rest

/-- What is to be done before some tasks and `rest` is to be done before `rest`. -/
theorem Machine.Busy.before {m : Machine κ σ} (xs : List (Task κ)) {rest : List (Task κ)} (h : m.Busy (xs ++ rest)) :
    m.Busy rest := by
  obtain ⟨front, hne, hm⟩ := h
  exact ⟨front ++ xs, by simp [hne], by rw [hm, List.append_assoc]⟩

/-- Where some task comes first there is something to do before what is behind it. -/
theorem Machine.busy_of_cons {m : Machine κ σ} {u : Task κ} (xs : List (Task κ)) {rest : List (Task κ)}
    (hm : m.agenda = u :: (xs ++ rest)) : m.Busy rest :=
  ⟨u :: xs, by simp, hm⟩

theorem Machine.Busy.ne {rest : List (Task κ)} {m : Machine κ σ} (h : m.Busy rest) : m.agenda ≠ rest := by
  obtain ⟨front, hne, hm⟩ := h
  intro heq
  have hlength := congrArg List.length (hm.symm.trans heq)
  rw [List.length_append] at hlength
  exact hne (List.length_eq_zero_iff.mp (by omega))

/-- From `m` on each of the tasks has its turn, one after the other and in front of `rest`,
and takes the machines of one of the courses. Then the machine is at the last one. -/
inductive Courses (L : Language κ σ) (rest : List (Task κ)) :
    Machine κ σ → List (Task κ) → List (List (Machine κ σ)) → Machine κ σ → Prop
  | done {m : Machine κ σ} (hm : m.agenda = rest) : Courses L rest m [] [] m
  | next {m n k : Machine κ σ} {u : Task κ} {tasks : List (Task κ)} {course : List (Machine κ σ)}
      {courses : List (List (Machine κ σ))} (hturn : m.agenda = u :: (tasks ++ rest))
      (hpasses : L.Passes m (m :: course) n) (hbusy : ∀ q ∈ course, q.Busy (tasks ++ rest))
      (h : Courses L rest n tasks courses k) :
      Courses L rest m (u :: tasks) ((m :: course) :: courses) k

namespace Courses

variable {m n : Machine κ σ} {rest xs ys : List (Task κ)} {cs : List (List (Machine κ σ))}

theorem agenda (h : Courses L rest m xs cs n) : m.agenda = xs ++ rest ∧ n.agenda = rest := by
  induction h with
  | done hm => exact ⟨hm, hm⟩
  | next hturn _ _ _ ih => exact ⟨hturn, ih.2⟩

theorem passes (h : Courses L rest m xs cs n) : L.Passes m cs.flatten n := by
  induction h with
  | done hm => exact .done _
  | next _ hpasses _ _ ih => exact hpasses.trans ih

/-- All the machines that are passed through have something to do before `rest`. -/
theorem busy (h : Courses L rest m xs cs n) : ∀ q ∈ cs.flatten, q.Busy rest := by
  induction h with
  | done hm => simp
  | @next _ _ _ _ tasks _ _ hturn _ hbusy _ ih =>
    intro q hq
    rw [List.flatten_cons, List.mem_append, List.mem_cons] at hq
    rcases hq with (rfl | hq) | hq
    · exact Machine.busy_of_cons tasks hturn
    · exact (hbusy q hq).before tasks
    · exact ih q hq

/-- The courses of the first tasks come before those of the others. -/
theorem split (h : Courses L rest m (xs ++ ys) cs n) : ∃ before after k, cs = before ++ after ∧
    Courses L (ys ++ rest) m xs before k ∧ Courses L rest k ys after n := by
  induction xs generalizing m cs with
  | nil => exact ⟨[], cs, m, rfl, .done h.agenda.1, h⟩
  | cons u xs ih =>
    cases h with
    | @next _ q _ _ _ course courses hturn hpasses hbusy h =>
      obtain ⟨before, after, k, rfl, hbefore, hafter⟩ := ih h
      have hassoc : xs.append ys ++ rest = xs ++ (ys ++ rest) := List.append_assoc xs ys rest
      rw [hassoc] at hturn hbusy
      exact ⟨(m :: course) :: before, after, k, rfl, .next hturn hpasses hbusy hbefore, hafter⟩

end Courses

/-- **Tasks have their turns** one after the other, until only what was behind them is left. -/
theorem Language.Passes.courses {m n : Machine κ σ} {ms : List (Machine κ σ)} {tasks rest : List (Task κ)}
    (h : L.Passes m ms n) (hagenda : m.agenda = tasks ++ rest) (hms : ∀ q ∈ ms, q.agenda ≠ rest)
    (hn : n.agenda = rest) : ∃ cs, Courses L rest m tasks cs n ∧ cs.flatten = ms := by
  -- some tasks may come in front, which the course of the task before them is to do first
  have key : ∀ front tasks, m.agenda = front ++ (tasks ++ rest) → ∃ course cs k, ms = course ++ cs.flatten ∧
      L.Passes m course k ∧ (∀ q ∈ course, q.Busy (tasks ++ rest)) ∧ Courses L rest k tasks cs n ∧
      (front = [] → course = []) := by
    clear hagenda
    induction h with
    | done m =>
      intro front tasks hagenda
      have hempty : front = [] ∧ tasks = [] := by
        have := congrArg List.length (hagenda.symm.trans hn)
        simp only [List.length_append] at this
        exact ⟨List.length_eq_zero_iff.mp (by omega), List.length_eq_zero_iff.mp (by omega)⟩
      obtain ⟨rfl, rfl⟩ := hempty
      exact ⟨[], [], m, rfl, .done m, by simp, .done hn, fun _ => rfl⟩
    | @step m n ms _ ih =>
      intro front tasks hagenda
      have ih := ih (fun q hq => hms q (List.mem_cons_of_mem _ hq)) hn
      have hstep : ∀ u behind, m.agenda = u :: behind → ∃ new, (L.step m).agenda = new ++ behind := by
        intro u behind hm
        simp only [Language.step, hm]
        exact ⟨_, rfl⟩
      cases front with
      | cons v front =>
        obtain ⟨new, hnew⟩ := hstep v (front ++ (tasks ++ rest)) hagenda
        obtain ⟨course, cs, k, rfl, hpasses, hbusy, hcs, -⟩ := ih (new ++ front) tasks (by rw [hnew, List.append_assoc])
        have hbusy' : m.Busy (tasks ++ rest) := ⟨v :: front, by simp, hagenda⟩
        exact ⟨m :: course, cs, k, rfl, .step hpasses, List.forall_mem_cons.mpr ⟨hbusy', hbusy⟩, hcs, by simp⟩
      | nil =>
        cases tasks with
        | nil => exact absurd hagenda (hms m List.mem_cons_self)
        | cons u tasks =>
          obtain ⟨new, hnew⟩ := hstep u _ hagenda
          obtain ⟨course, cs, k, rfl, hpasses, hbusy, hcs, -⟩ := ih new tasks hnew
          exact ⟨[], (m :: course) :: cs, m, rfl, .done m, by simp,
            .next hagenda (.step hpasses) hbusy hcs, fun _ => rfl⟩
  obtain ⟨course, cs, k, rfl, hpasses, -, hcs, hnone⟩ := key [] tasks hagenda
  obtain rfl := hnone rfl
  cases hpasses
  exact ⟨cs, hcs, rfl⟩

end LiveRules
