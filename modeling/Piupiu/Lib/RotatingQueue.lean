import Mathlib

/-!
# A queue whose front may be put back

A consumer looks at the front of a queue and either takes it for good or puts it
back at the end. Every pushed value gets a ticket, its position among all pushes,
and a ledger follows the tickets through the queue. The two laws are that the
ledger loses and repeats no ticket, and that the values of one key stay in the
order they came in as long as none of them is put back.
-/
namespace RotatingQueue

inductive Op (α : Type) where
  | push (a : α)
  | take
  | back
  deriving DecidableEq, Repr

/-- The history of a queue: who waits, front first, all pushed values in order,
and who has been taken, first one first. A value stands next to its ticket. -/
structure Ledger (α : Type) where
  waiting : List (α × Nat)
  issued : List α
  taken : List (α × Nat)
  deriving DecidableEq, Repr

variable {α κ : Type}

def Ledger.apply (l : Ledger α) : Op α → Ledger α
  | .push a => ⟨l.waiting ++ [(a, l.issued.length)], l.issued ++ [a], l.taken⟩
  | .take =>
    match l.waiting with
    | [] => l
    | e :: rest => ⟨rest, l.issued, l.taken ++ [e]⟩
  | .back =>
    match l.waiting with
    | [] => l
    | e :: rest => ⟨rest ++ [e], l.issued, l.taken⟩

theorem apply_take {l : Ledger α} {e : α × Nat} {rest : List (α × Nat)}
    (h : l.waiting = e :: rest) : l.apply .take = ⟨rest, l.issued, l.taken ++ [e]⟩ := by
  simp [Ledger.apply, h]

theorem apply_back {l : Ledger α} {e : α × Nat} {rest : List (α × Nat)}
    (h : l.waiting = e :: rest) : l.apply .back = ⟨rest ++ [e], l.issued, l.taken⟩ := by
  simp [Ledger.apply, h]

def replayFrom (l : Ledger α) (ops : List (Op α)) : Ledger α := ops.foldl Ledger.apply l

/-- The ledger of a queue that started empty. -/
def replay (ops : List (Op α)) : Ledger α := replayFrom ⟨[], [], []⟩ ops

@[simp] theorem replayFrom_nil (l : Ledger α) : replayFrom l [] = l := rfl
@[simp] theorem replayFrom_cons (l : Ledger α) (op : Op α) (ops : List (Op α)) :
    replayFrom l (op :: ops) = replayFrom (l.apply op) ops := rfl
@[simp] theorem replay_nil : replay ([] : List (Op α)) = ⟨[], [], []⟩ := rfl

theorem replay_append (ops ops' : List (Op α)) :
    replay (ops ++ ops') = replayFrom (replay ops) ops' := List.foldl_append

/-- The tickets in the ledger are those of the pushed values, each exactly once. -/
def Ledger.Sound (l : Ledger α) : Prop := (l.waiting ++ l.taken).Perm l.issued.zipIdx

theorem sound_apply {l : Ledger α} (h : l.Sound) (op : Op α) : (l.apply op).Sound := by
  cases op with
  | push a =>
    simp only [Ledger.Sound, Ledger.apply, List.zipIdx_append, List.zipIdx_cons, List.zipIdx_nil,
      Nat.zero_add, List.append_assoc]
    have hswap : ([(a, l.issued.length)] ++ l.taken).Perm (l.taken ++ [(a, l.issued.length)]) :=
      List.perm_append_comm
    exact (hswap.append_left l.waiting).trans
      (by simpa only [List.append_assoc] using h.append_right [(a, l.issued.length)])
  | take =>
    obtain ⟨waiting, issued, taken⟩ := l
    cases waiting with
    | nil => exact h
    | cons e rest =>
      have hmove : (rest ++ (taken ++ [e])).Perm (e :: (rest ++ taken)) := by
        rw [← List.append_assoc]
        exact List.perm_append_comm
      exact hmove.trans h
  | back =>
    obtain ⟨waiting, issued, taken⟩ := l
    cases waiting with
    | nil => exact h
    | cons e rest =>
      have hmove : (rest ++ [e]).Perm (e :: rest) := List.perm_append_singleton e rest
      exact (hmove.append_right taken).trans h

theorem sound_replayFrom {l : Ledger α} (h : l.Sound) (ops : List (Op α)) :
    (replayFrom l ops).Sound := by
  induction ops generalizing l with
  | nil => exact h
  | cons op ops ih => exact ih (sound_apply h op)

/-- No ticket is lost and none is repeated, whatever happens to the queue. -/
theorem sound_replay (ops : List (Op α)) : (replay ops).Sound :=
  sound_replayFrom (by simp [Ledger.Sound]) ops

theorem Ledger.Sound.mem_iff {l : Ledger α} (h : l.Sound) (a : α) (t : Nat) :
    (a, t) ∈ l.waiting ∨ (a, t) ∈ l.taken ↔ l.issued[t]? = some a := by
  rw [← List.mem_append, List.Perm.mem_iff h, List.mem_zipIdx_iff_getElem?]

theorem Ledger.Sound.nodup {l : Ledger α} (h : l.Sound) : (l.waiting ++ l.taken).Nodup := by
  refine h.nodup_iff.mpr (List.Nodup.of_map Prod.snd ?_)
  rw [List.zipIdx_map_snd]
  exact List.nodup_range' 1 (by decide)

/-- The ticket of a pushed value is in exactly one of the two places, once. -/
theorem Ledger.Sound.one_place [DecidableEq α] {l : Ledger α} (h : l.Sound) {a : α} {t : Nat}
    (ht : l.issued[t]? = some a) :
    (l.waiting.count (a, t) = 1 ∧ (a, t) ∉ l.taken) ∨
      (l.waiting.count (a, t) = 0 ∧ l.taken.count (a, t) = 1) := by
  have hnd := List.nodup_append.mp h.nodup
  rcases (h.mem_iff a t).mpr ht with hw | hk
  · exact .inl ⟨List.count_eq_one_of_mem hnd.1 hw, fun hk => hnd.2.2 _ hw _ hk rfl⟩
  · exact .inr ⟨List.count_eq_zero.mpr fun hw => hnd.2.2 _ hw _ hk rfl,
      List.count_eq_one_of_mem hnd.2.1 hk⟩

/-- Pushing several values changes nothing for those that were there before. -/
theorem replayFrom_pushes (l : Ledger α) (as : List α) :
    (replayFrom l (as.map .push)).waiting.map Prod.fst = l.waiting.map Prod.fst ++ as ∧
      (replayFrom l (as.map .push)).issued = l.issued ++ as ∧
      (replayFrom l (as.map .push)).taken = l.taken := by
  induction as generalizing l with
  | nil => simp
  | cons a as ih =>
    obtain ⟨hw, hi, ht⟩ := ih (l.apply (.push a))
    rw [List.map_cons, replayFrom_cons, hw, hi, ht]
    simp [Ledger.apply]

/-- A turn of the consumer is a take or a back. -/
def Op.isTurn : Op α → Bool
  | .push _ => false
  | .take | .back => true

/-- An operation that is a turn moves an entry up, and a push leaves it where it is. -/
theorem apply_position {l : Ledger α} {op : Op α} {e : α × Nat} {p : Nat}
    (h : l.waiting[p + op.isTurn.toNat]? = some e) : (l.apply op).waiting[p]? = some e := by
  obtain ⟨waiting, issued, taken⟩ := l
  cases op with
  | push a =>
    have hlt := (List.getElem?_eq_some_iff.mp h).1
    exact (List.getElem?_append_left hlt).trans h
  | take =>
    cases waiting with
    | nil => simp at h
    | cons e' rest => exact h
  | back =>
    cases waiting with
    | nil => simp at h
    | cons e' rest =>
      have hrest : rest[p]? = some e := h
      have hlt := (List.getElem?_eq_some_iff.mp hrest).1
      exact (List.getElem?_append_left hlt).trans hrest

/-- An entry reaches the front after as many turns as there are entries before it. -/
theorem replayFrom_position {l : Ledger α} {ops : List (Op α)} {e : α × Nat} {p : Nat}
    (h : l.waiting[p + ops.countP Op.isTurn]? = some e) :
    (replayFrom l ops).waiting[p]? = some e := by
  induction ops generalizing l with
  | nil => exact h
  | cons op ops ih =>
    refine ih (apply_position ?_)
    rw [← h, List.countP_cons]
    cases op.isTurn <;> simp [Nat.add_assoc]

section order

variable [DecidableEq κ] (key : α → κ) (r : κ)

/-- The waiting entries of key `r` stand in the order of their tickets. -/
def Ledger.InLine (l : Ledger α) : Prop :=
  (l.waiting.filter fun e => key e.1 = r).Pairwise fun e e' => e.2 < e'.2

/-- Only an entry of the key that goes back can disturb the order of the key. -/
theorem inLine_apply {l : Ledger α} {op : Op α} (hs : l.Sound) (h : l.InLine key r)
    (hop : op = .back → ∀ e rest, l.waiting = e :: rest → key e.1 ≠ r) :
    (l.apply op).InLine key r := by
  obtain ⟨waiting, issued, taken⟩ := l
  cases op with
  | push a =>
    have hlt : ∀ e ∈ waiting.filter (fun e => key e.1 = r), e.2 < issued.length := by
      intro e he
      have hi := (hs.mem_iff e.1 e.2).mp (.inl (List.mem_filter.mp he).1)
      exact (List.getElem?_eq_some_iff.mp hi).1
    simp only [Ledger.InLine, Ledger.apply, List.filter_append, List.pairwise_append]
    refine ⟨h, (List.pairwise_singleton _ _).filter _, fun e he e' he' => ?_⟩
    rw [List.mem_singleton.mp (List.mem_filter.mp he').1]
    exact hlt e he
  | take =>
    cases waiting with
    | nil => exact h
    | cons e rest =>
      have hsub : (rest.filter fun e => key e.1 = r).Sublist
          ((e :: rest).filter fun e => key e.1 = r) := (List.sublist_cons_self e rest).filter _
      exact List.Pairwise.sublist hsub h
  | back =>
    cases waiting with
    | nil => exact h
    | cons e rest =>
      have hne := hop rfl e rest rfl
      simpa [Ledger.InLine, Ledger.apply, List.filter_append, List.filter_cons, hne] using h

theorem inLine_pushes {l : Ledger α} (hs : l.Sound) (h : l.InLine key r) (as : List α) :
    (replayFrom l (as.map .push)).InLine key r := by
  induction as generalizing l with
  | nil => exact h
  | cons a as ih =>
    exact ih (sound_apply hs (.push a)) (inLine_apply key r hs h fun hop => by cases hop)

/-- An entry that reaches the front in order comes after all older ones of its key. -/
theorem Ledger.InLine.front_last {l : Ledger α} (hs : l.Sound) (h : l.InLine key r) {a a' : α}
    {t t' : Nat} (hfront : l.waiting.head? = some (a', t')) (ha : l.issued[t]? = some a)
    (hka : key a = r) (hka' : key a' = r) (hlt : t < t') : (a, t) ∈ l.taken := by
  obtain ⟨rest, hw⟩ := List.head?_eq_some_iff.mp hfront
  refine ((hs.mem_iff a t).mpr ha).resolve_left fun hmem => ?_
  rw [Ledger.InLine, hw, List.filter_cons_of_pos (by simpa using hka'), List.pairwise_cons] at h
  rw [hw] at hmem
  rcases List.mem_cons.mp hmem with he | he
  · have : t = t' := congrArg Prod.snd he
    omega
  · have : t' < t := h.1 (a, t) (List.mem_filter.mpr ⟨he, by simpa using hka⟩)
    omega

end order

end RotatingQueue
