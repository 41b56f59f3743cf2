import Mathlib.Data.List.Forall2
import Wicara.Lib.Fallible

namespace Wicara.Lib.Streams

inductive ReadError
  | unexpectedEof
  | other (err : String)
  deriving DecidableEq

def ReadError.message : ReadError → String
  | .unexpectedEof => "early eof"
  | .other err => err

/-- What is still to come of a stream, and how it ends: cleanly, or with an error. -/
structure ByteStream where
  bytes : List UInt8
  ending : Option String
  deriving DecidableEq

/-- What who reads past the end is told. -/
def ByteStream.eof (s : ByteStream) : ReadError :=
  match s.ending with
  | none => .unexpectedEof
  | some err => .other err

variable {ε σ α : Type}

/-- `read_exact` fills its buffer of `n` bytes, or takes what there is and fails. -/
def readExact (n : Nat) : EStateM ε ByteStream (Except ReadError (List UInt8)) := fun s =>
  if n ≤ s.bytes.length then .ok (.ok (s.bytes.take n)) { s with bytes := s.bytes.drop n }
  else .ok (.error s.eof) { s with bytes := [] }

theorem run_readExact_append {bytes : List UInt8} {n : Nat} (h : bytes.length = n)
    (rest : List UInt8) (ending : Option String) :
    (readExact n : EStateM ε ByteStream _).run ⟨bytes ++ rest, ending⟩ =
      .ok (.ok bytes) ⟨rest, ending⟩ := by
  subst h
  have hle : bytes.length ≤ (bytes ++ rest).length := by simp
  change readExact _ _ = _
  simp only [readExact, if_pos hle, List.take_left', List.drop_left']

/-- `read_exact` cannot tell a stream that ends here from one that ends too early. -/
theorem run_readExact_of_lt {bytes : List UInt8} {n : Nat} (h : bytes.length < n) :
    (readExact n : EStateM ε ByteStream _).run ⟨bytes, none⟩ =
      .ok (.error .unexpectedEof) ⟨[], none⟩ := by
  change readExact _ _ = _
  simp only [readExact, if_neg (Nat.not_le.mpr h)]
  rfl

/-- `n` calls, one after another. -/
def calls (m : EStateM ε σ α) : Nat → EStateM ε σ (List α)
  | 0 => pure []
  | n + 1 => do
    let a ← m
    let as ← calls m n
    pure (a :: as)

variable {m : EStateM ε σ α} {s t u : σ} {as bs : List α} {j k : Nat}

theorem run_calls_succ {a : α} (hm : m.run s = .ok a t) (h : (calls m k).run t = .ok as u) :
    (calls m (k + 1)).run s = .ok (a :: as) u := by
  simp only [calls, EStateM.run_bind, hm, h, EStateM.run_pure]

theorem run_calls_add (h : (calls m j).run s = .ok as t) (h' : (calls m k).run t = .ok bs u) :
    (calls m (j + k)).run s = .ok (as ++ bs) u := by
  induction j generalizing s as with
  | zero =>
    cases h
    rwa [Nat.zero_add]
  | succ j ih =>
    simp only [calls, EStateM.run_bind] at h
    split at h
    · rename_i a s' hm
      split at h
      · rename_i as' s'' hcalls
        cases h
        rw [Nat.succ_add]
        exact run_calls_succ hm (ih hcalls)
      · cases h
    · cases h

/-- What has come to an end stays there. -/
theorem run_calls_of_run_eq {a : α} (h : m.run s = .ok a s) (k : Nat) :
    (calls m k).run s = .ok (List.replicate k a) s := by
  induction k with
  | zero => rfl
  | succ k ih => exact run_calls_succ h ih

/-- Of what begins with `bytes`, `read` takes these and makes `a` of them. -/
def Reads (read : EStateM ε ByteStream α) (bytes : List UInt8) (a : α) : Prop :=
  ∀ rest ending, read.run ⟨bytes ++ rest, ending⟩ = .ok a ⟨rest, ending⟩

/-- What is read one by one is read one after another. -/
theorem reads_calls {read : EStateM ε ByteStream α} {encoded : List (List UInt8)}
    (h : encoded.Forall₂ (Reads read) as) :
    Reads (calls read as.length) encoded.flatten as := by
  induction h with
  | nil => exact fun _ _ => rfl
  | @cons bytes a encoded as hread _ ih =>
    intro rest ending
    rw [List.flatten_cons, List.append_assoc]
    exact run_calls_succ (hread _ _) (ih rest ending)

/-- What is read one after another until there is no more, or something fails; none if `fuel`
reads do not get there. -/
def readToEnd (read : EStateM ε ByteStream (Option α)) :
    Nat → ByteStream → Option (List α × Except ε Unit)
  | 0, _ => none
  | fuel + 1, s =>
    match read.run s with
    | .ok none _ => some ([], .ok ())
    | .ok (some a) s => (readToEnd read fuel s).map fun (as, stop) => (a :: as, stop)
    | .error e _ => some ([], .error e)

/-- What is read one by one comes first, whatever is behind it. -/
theorem readToEnd_append {read : EStateM ε ByteStream (Option α)} {encoded : List (List UInt8)}
    (h : List.Forall₂ (fun a bytes => Reads read bytes (some a)) as encoded) (rest : List UInt8)
    (ending : Option String) (fuel : Nat) :
    readToEnd read (as.length + fuel) ⟨encoded.flatten ++ rest, ending⟩ =
      (readToEnd read fuel ⟨rest, ending⟩).map fun (bs, stop) => (as ++ bs, stop) := by
  induction h with
  | nil => simp
  | @cons a bytes as encoded hread _ ih =>
    rw [List.length_cons, Nat.succ_add, List.flatten_cons, List.append_assoc, readToEnd, hread]
    dsimp only
    rw [ih, Option.map_map]
    rfl

/-- Where what is written at `n` begins, and what is before it ends. -/
def boundary (encoded : List (List UInt8)) (n : Nat) : Nat := (encoded.take n).flatten.length

/-- How many lie wholly before a cut. -/
def whole : List (List UInt8) → Nat → Nat
  | [], _ => 0
  | bytes :: encoded, cut =>
    if bytes.length ≤ cut then whole encoded (cut - bytes.length) + 1 else 0

@[simp] theorem boundary_zero (encoded : List (List UInt8)) : boundary encoded 0 = 0 := rfl

theorem boundary_succ {encoded : List (List UInt8)} {bytes : List UInt8} {n : Nat}
    (h : encoded[n]? = some bytes) :
    boundary encoded (n + 1) = boundary encoded n + bytes.length := by
  rw [boundary, boundary, List.take_add_one, h]
  simp

@[simp] theorem boundary_cons_succ (bytes : List UInt8) (encoded : List (List UInt8)) (n : Nat) :
    boundary (bytes :: encoded) (n + 1) = bytes.length + boundary encoded n := by
  simp [boundary]

theorem whole_le (encoded : List (List UInt8)) (cut : Nat) :
    whole encoded cut ≤ encoded.length := by
  induction encoded generalizing cut with
  | nil => exact Nat.zero_le _
  | cons bytes encoded ih =>
    rw [whole]
    split
    · exact Nat.succ_le_succ (ih _)
    · exact Nat.zero_le _

/-- They are those that end at the cut or before it. -/
theorem le_whole_iff {encoded : List (List UInt8)} {cut n : Nat} (hn : n ≤ encoded.length) :
    n ≤ whole encoded cut ↔ boundary encoded n ≤ cut := by
  induction encoded generalizing cut n with
  | nil => simp_all [whole]
  | cons bytes encoded ih =>
    cases n with
    | zero => simp
    | succ n =>
      rw [whole, boundary_cons_succ]
      split
      · rw [Nat.add_le_add_iff_right, ih (Nat.le_of_succ_le_succ hn)]
        omega
      · omega

/-- What is left of a stream that was cut: what lies wholly before the cut, and a part of the
next. -/
theorem take_flatten (encoded : List (List UInt8)) (cut : Nat) :
    encoded.flatten.take cut = (encoded.take (whole encoded cut)).flatten ++
      (encoded[whole encoded cut]?.getD []).take (cut - boundary encoded (whole encoded cut)) := by
  induction encoded generalizing cut with
  | nil => simp [whole]
  | cons bytes encoded ih =>
    rw [List.flatten_cons, whole, List.take_append]
    split
    · rename_i hle
      rw [ih, List.take_of_length_le hle]
      simp [Nat.sub_add_eq]
    · rename_i hgt
      rw [show cut - bytes.length = 0 by omega]
      simp

end Wicara.Lib.Streams
