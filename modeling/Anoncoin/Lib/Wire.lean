import Anoncoin.Lib.Effects
import Mathlib.Logic.Basic
import Mathlib.Data.Int.Basic
import Mathlib.Data.List.Basic

/-!
Readers of byte streams. What a reader takes for the encoding of a value, what it turns
back into the bytes that it took, and what it costs in terms of the bytes that it took.
-/

set_option autoImplicit false

namespace Anoncoin.Lib

/-- The bytes that are left, the memory that was reserved and the rounds of loops that
were begun so far. -/
structure Stream where
  input : List UInt8
  reserved : Nat
  rounds : Nat

abbrev Reader (ε α : Type) := EStateM ε Stream α

section Reader
variable {ε α β : Type} {e : ε}

/-- The next `n` bytes; `e` is the failure at the end of the input. -/
def take (e : ε) (n : Nat) : Reader ε (List UInt8) := fun s =>
  if n ≤ s.input.length then .ok (s.input.take n) { s with input := s.input.drop n }
  else .error e s

def reserve (n : Nat) : Reader ε Unit := fun s => .ok () { s with reserved := s.reserved+n }

def countRound : Reader ε Unit := fun s => .ok () { s with rounds := s.rounds+1 }

/-- The elements of a vector one after the other. -/
def readMany (elem : Reader ε α) : Nat → Reader ε (List α)
  | 0 => pure []
  | n+1 => do
      countRound
      let a ← elem
      let rest ← readMany elem n
      pure (a :: rest)

theorem bind_eq_ok {r : Reader ε α} {f : α → Reader ε β} {s s'' : Stream} {b : β} :
    (r >>= f) s = .ok b s'' ↔ ∃ a s', r s = .ok a s' ∧ f a s' = .ok b s'' := by
  change EStateM.bind r f s = _ ↔ _
  unfold EStateM.bind
  cases r s with
  | ok a s' => simp
  | error e s' => simp

theorem pure_eq_ok {a b : α} {s s' : Stream} :
    (pure a : Reader ε α) s = .ok b s' ↔ a = b ∧ s = s' := by
  change EStateM.Result.ok a s = _ ↔ _
  simp

/-- A round of a loop that reserves room, reads one part and goes on with the rest. -/
theorem round_eq_ok {n : Nat} {part rest : Reader ε (List α)} {v : List α} {s s' : Stream}
    (h : (do countRound; reserve n; let block ← part; let later ← rest; pure (block ++ later) :
      Reader ε (List α)) s = .ok v s') :
    ∃ s₁ block s₂ later, s₁.input = s.input ∧ part s₁ = .ok block s₂ ∧ rest s₂ = .ok later s' ∧
      v = block ++ later := by
  obtain ⟨_,s₁,hround,h⟩ := bind_eq_ok.mp h
  obtain ⟨_,s₂,hreserve,h⟩ := bind_eq_ok.mp h
  obtain ⟨block,s₃,hpart,h⟩ := bind_eq_ok.mp h
  obtain ⟨later,s₄,hrest,h⟩ := bind_eq_ok.mp h
  obtain ⟨rfl,rfl⟩ := pure_eq_ok.mp h
  obtain ⟨-,rfl⟩ := EStateM.Result.ok.inj hround
  obtain ⟨-,rfl⟩ := EStateM.Result.ok.inj hreserve
  refine ⟨_,block,s₃,later,?_,hpart,hrest,rfl⟩
  rfl

theorem throw_ne_ok {s s' : Stream} {a : α} : (throw e : Reader ε α) s ≠ .ok a s' := by
  intro h
  exact EStateM.Result.noConfusion rfl rfl rfl (heq_of_eq h)

theorem take_eq_ok {n : Nat} {s s' : Stream} {bytes : List UInt8} :
    take e n s = .ok bytes s' ↔
      bytes.length = n ∧ s.input = bytes ++ s'.input ∧ s' = { s with input := s'.input } := by
  unfold take
  constructor
  · intro h
    split at h
    · rename_i hle
      obtain ⟨rfl,rfl⟩ := EStateM.Result.ok.inj h
      exact ⟨List.length_take_of_le hle,(List.take_append_drop n s.input).symm,rfl⟩
    · contradiction
  · rintro ⟨rfl,hinput,hs⟩
    rw [if_pos (by rw [hinput]; simp),hinput,List.take_left,List.drop_left]
    exact congrArg _ hs.symm

/-- The reader takes the bytes off the front of every stream, and returns `a`. -/
def Reads (r : Reader ε α) (bytes : List UInt8) (a : α) : Prop :=
  ∀ s rest, s.input = bytes ++ rest → ∃ s', r s = .ok a s' ∧ s'.input = rest

namespace Reads

theorem pure (a : α) : Reads (pure a : Reader ε α) [] a := by
  intro s rest h
  exact ⟨s,rfl,h⟩

theorem bind {r : Reader ε α} {f : α → Reader ε β} {first second : List UInt8} {a : α} {b : β}
    (hr : Reads r first a) (hf : Reads (f a) second b) : Reads (r >>= f) (first ++ second) b := by
  intro s rest h
  rw [List.append_assoc] at h
  obtain ⟨s',hs',hrest⟩ := hr s _ h
  obtain ⟨s'',hs'',hdone⟩ := hf s' rest hrest
  exact ⟨s'',bind_eq_ok.mpr ⟨a,s',hs',hs''⟩,hdone⟩

/-- The rest of a reader that takes nothing more. -/
theorem map {r : Reader ε α} {bytes : List UInt8} {a : α} {f : α → Reader ε β} {b : β}
    (hr : Reads r bytes a) (hf : Reads (f a) [] b) : Reads (r >>= f) bytes b := by
  have h := hr.bind hf
  rwa [List.append_nil] at h

/-- A first step that takes nothing. -/
theorem after {r : Reader ε α} {bytes : List UInt8} {a : α} {f : α → Reader ε β} {b : β}
    (hr : Reads r [] a) (hf : Reads (f a) bytes b) : Reads (r >>= f) bytes b := hr.bind hf

/-- The same reader with other failures. -/
theorem adaptExcept {ε' : Type} {r : Reader ε α} {bytes : List UInt8} {a : α} (f : ε → ε')
    (h : Reads r bytes a) : Reads (EStateM.adaptExcept f r : Reader ε' α) bytes a := by
  intro s rest hs
  obtain ⟨s',hr,hrest⟩ := h s rest hs
  exact ⟨s',by rw [EStateM.adaptExcept,hr],hrest⟩

theorem take (bytes : List UInt8) : Reads (take e bytes.length) bytes bytes := by
  intro s rest h
  exact ⟨{ s with input := rest },take_eq_ok.mpr ⟨rfl,h,rfl⟩,rfl⟩

theorem reserve (n : Nat) : Reads (reserve n : Reader ε Unit) [] () := by
  intro s rest h
  exact ⟨_,rfl,h⟩

theorem countRound : Reads (countRound : Reader ε Unit) [] () := by
  intro s rest h
  exact ⟨_,rfl,h⟩

/-- The elements are written from something that they are computed from. -/
theorem readMany_map {elem : Reader ε α} {write : β → List UInt8} {value : β → α} {l : List β}
    (h : ∀ b ∈ l, Reads elem (write b) (value b)) :
    Reads (readMany elem l.length) (l.flatMap write) (l.map value) := by
  induction l with
  | nil => exact Reads.pure []
  | cons b l ih =>
    have hb := h b (by simp)
    have hl := ih fun c hc => h c (by simp [hc])
    exact countRound.after (hb.bind (hl.map (Reads.pure _)))

theorem readMany {elem : Reader ε α} {write : α → List UInt8} {l : List α}
    (h : ∀ a ∈ l, Reads elem (write a) a) :
    Reads (readMany elem l.length) (l.flatMap write) l := by
  have hmap : Reads (Lib.readMany elem l.length) (l.flatMap write) (l.map id) := readMany_map h
  rwa [List.map_id] at hmap

end Reads

/-- What the reader returns would be written as the bytes that it took. -/
def Inverts (r : Reader ε α) (write : α → List UInt8) : Prop :=
  ∀ s a s', r s = .ok a s' → s.input = write a ++ s'.input

namespace Inverts

theorem take (n : Nat) : Inverts (take e n) id := by
  intro s a s' h
  exact (take_eq_ok.mp h).2.1

theorem readMany {elem : Reader ε α} {write : α → List UInt8} (h : Inverts elem write) {n : Nat}
    {s s' : Stream} {l : List α} (hl : readMany elem n s = .ok l s') :
    l.length = n ∧ s.input = l.flatMap write ++ s'.input := by
  induction n generalizing s l with
  | zero =>
    obtain ⟨rfl,rfl⟩ := pure_eq_ok.mp hl
    exact ⟨rfl,rfl⟩
  | succ n ih =>
    obtain ⟨_,s₁,hround,hl⟩ := bind_eq_ok.mp hl
    obtain ⟨a,s₂,ha,hl⟩ := bind_eq_ok.mp hl
    obtain ⟨rest,s₃,hrest,hl⟩ := bind_eq_ok.mp hl
    obtain ⟨rfl,rfl⟩ := pure_eq_ok.mp hl
    obtain ⟨hlen,heq⟩ := ih hrest
    have hsame : s₁.input = s.input := by
      obtain ⟨-,rfl⟩ := EStateM.Result.ok.inj hround
      rfl
    refine ⟨by rw [List.length_cons,hlen],?_⟩
    rw [← hsame,h s₁ a s₂ ha,heq,List.flatMap_cons,List.append_assoc]

end Inverts

/-- Whatever the reader returns has the property. -/
def Returns (r : Reader ε α) (p : α → Prop) : Prop :=
  ∀ s, Ends (fun _ _ => True) r s fun a _ => p a

namespace Returns
variable {p : α → Prop} {q : β → Prop}

theorem pure {a : α} (h : p a) : Returns (pure a : Reader ε α) p := fun _ => ends_pure.mpr h

theorem throw : Returns (throw e : Reader ε α) p := fun _ => ends_throw.mpr trivial

theorem any (r : Reader ε α) : Returns r fun _ => True :=
  fun _ => ends_of_forall (fun _ _ => trivial) fun _ _ => trivial

theorem bind {r : Reader ε α} {f : α → Reader ε β} (h : Returns r p)
    (hf : ∀ a, p a → Returns (f a) q) : Returns (r >>= f) q :=
  fun s => (h s).bind fun a s' ha => hf a ha s'

theorem readMany {elem : Reader ε α} (h : Returns elem p) (n : Nat) :
    Returns (readMany elem n) fun l => ∀ a ∈ l, p a := by
  induction n with
  | zero => exact pure (by simp)
  | succ n ih =>
    refine (any countRound).bind fun _ _ => h.bind fun a ha => ih.bind fun l hl => pure ?_
    exact List.forall_mem_cons.mpr ⟨ha,hl⟩

end Returns

/-- What is left to pay with: `m` units of memory and one round for each byte of input. -/
def Stream.memory (m : Nat) (s : Stream) : Int := s.reserved+m*s.input.length

def Stream.effort (s : Stream) : Int := s.rounds+s.input.length

/-- A reader that succeeds has `memory` and `rounds` over from what the bytes that it took
pay for. When it fails it owes no more than `debt` and `late`. -/
def Pays (m : Nat) (r : Reader ε α) (memory rounds debt late : Int) : Prop :=
  ∀ s, match r s with
    | .ok _ s' => s'.memory m+memory ≤ s.memory m ∧ s'.effort+rounds ≤ s.effort
    | .error _ s' => s'.memory m ≤ s.memory m+debt ∧ s'.effort ≤ s.effort+late

namespace Pays
variable {m : Nat} {memory rounds debt late : Int}

theorem pure (a : α) : Pays m (pure a : Reader ε α) 0 0 debt late := by
  intro s
  change s.memory m+0 ≤ s.memory m ∧ s.effort+0 ≤ s.effort
  omega

theorem throw (hd : 0 ≤ debt) (hl : 0 ≤ late) :
    Pays m (throw e : Reader ε α) memory rounds debt late := by
  intro s
  change s.memory m ≤ s.memory m+debt ∧ s.effort ≤ s.effort+late
  omega

theorem mono {r : Reader ε α} {memory' rounds' debt' late' : Int}
    (h : Pays m r memory rounds debt late) (hm : memory' ≤ memory) (hr : rounds' ≤ rounds)
    (hd : debt ≤ debt') (hl : late ≤ late') : Pays m r memory' rounds' debt' late' := by
  intro s
  have hs := h s
  cases hrun : r s with
  | ok a s' =>
    simp only [hrun] at hs ⊢
    omega
  | error e s' =>
    simp only [hrun] at hs ⊢
    omega

/-- What the first step has over, the second may owe. -/
theorem bind {r : Reader ε α} {f : α → Reader ε β} {memory' rounds' : Int}
    (hr : Pays m r memory rounds debt late)
    (hf : ∀ a, Pays m (f a) memory' rounds' (debt+memory) (late+rounds)) :
    Pays m (r >>= f) (memory+memory') (rounds+rounds') debt late := by
  intro s
  have hs := hr s
  change match EStateM.bind r f s with
    | .ok _ s' => _
    | .error _ s' => _
  unfold EStateM.bind
  cases hrun : r s with
  | error e s' =>
    simp only [hrun] at hs ⊢
    exact hs
  | ok a s' =>
    simp only [hrun] at hs ⊢
    have hs' := hf a s'
    cases hrun' : f a s' with
    | ok b s'' =>
      simp only [hrun'] at hs' ⊢
      omega
    | error e s'' =>
      simp only [hrun'] at hs' ⊢
      omega

theorem take (n : Nat) (hd : 0 ≤ debt) (hl : 0 ≤ late) :
    Pays m (take e n : Reader ε (List UInt8)) (m*n) n debt late := by
  intro s
  unfold Lib.take
  by_cases hle : n ≤ s.input.length
  · have hlen : (s.input.length : Int) = (s.input.drop n).length+n := by
      rw [List.length_drop]
      omega
    rw [if_pos hle]
    simp only [Stream.memory,Stream.effort]
    rw [hlen,Int.mul_add]
    omega
  · rw [if_neg hle]
    simp only
    omega

theorem reserve (n : Nat) : Pays m (reserve n : Reader ε Unit) (-n) 0 debt late := by
  intro s
  simp only [Lib.reserve,Stream.memory,Stream.effort]
  omega

theorem countRound : Pays m (countRound : Reader ε Unit) 0 (-1) debt late := by
  intro s
  simp only [Lib.countRound,Stream.memory,Stream.effort]
  omega

/-- Each element pays for its round, and what else it has over adds up. -/
theorem readMany {elem : Reader ε α} (h : Pays m elem memory rounds debt late)
    (hm : 0 ≤ memory) (hr : 1 ≤ rounds) (n : Nat) :
    Pays m (readMany elem n) (n*memory) (n*(rounds-1)) debt (late+1) := by
  induction n with
  | zero =>
    have h₀ : Pays m (Pure.pure [] : Reader ε (List α)) 0 0 debt (late+1) := Pays.pure []
    simpa [Lib.readMany] using h₀
  | succ n ih =>
    have hrest : ∀ a, Pays m (Lib.readMany elem n >>= fun rest => Pure.pure (a :: rest))
        (n*memory+0) (n*(rounds-1)+0) (debt+memory) (late+rounds) := by
      intro a
      refine Pays.bind (ih.mono (Int.le_refl _) (Int.le_refl _) (by omega) (by omega)) ?_
      exact fun rest => Pays.pure _
    have helem : ∀ u : Unit, Pays m (elem >>= fun a =>
        Lib.readMany elem n >>= fun rest => Pure.pure (a :: rest))
        (memory+(n*memory+0)) (rounds+(n*(rounds-1)+0)) (debt+0) (late+1+-1) := by
      intro _
      refine Pays.bind (h.mono (Int.le_refl _) (Int.le_refl _) (by omega) (by omega)) fun a => ?_
      exact (hrest a).mono (Int.le_refl _) (Int.le_refl _) (by omega) (by omega)
    have hall := Pays.bind Pays.countRound helem
    refine hall.mono ?_ ?_ (Int.le_refl _) (Int.le_refl _)
    · push_cast
      rw [Int.add_mul]
      omega
    · push_cast
      rw [Int.add_mul]
      omega

end Pays

end Reader

end Anoncoin.Lib
