import Formals.Proofs.Lowering

/-!
# What expressions evaluate to

`Expr.eval` is the action of an expression: its parts are evaluated in order, and then joined. The
code for an expression realizes it (`Expr.lower_realizes`).
-/

namespace Formals

namespace Expr

mutual
/-- The value of an expression. -/
def eval : Expr → Act Value
  | nil => return .nil
  | bool b => return .bool b
  | self => Act.getSelf
  | int value => return .int value
  | str value => return .str value
  | sym value => return .sym value
  | localVar name => Act.getLocal name
  | instanceVar name => Act.getInstance name
  | globalVar name => Act.getGlobal name
  | array elements => do
    let items ← evalList elements
    Value.array <$> Act.newArray items
  | hash pairs => do
    let flat ← evalPairs pairs
    Value.hash <$> (Act.inspect (Machine.entriesOf · [] flat) >>= Act.newHash)
  | call none method arguments => do
    let items ← evalList arguments
    let receiver ← Act.getSelf
    Act.send receiver method items
  | call (some receiver) method arguments => do
    let items ← evalList arguments
    let receiver ← receiver.eval
    Act.send receiver method items

/-- The values of some expressions. -/
def evalList : List Expr → Act (List Value)
  | [] => return []
  | e :: rest => do
    let first ← e.eval
    (first :: ·) <$> evalList rest

/-- The keys and values of some pairs in turn. -/
def evalPairs : List (Expr × Expr) → Act (List Value)
  | [] => return []
  | (key, value) :: rest => do
    let first ← key.eval
    let second ← value.eval
    (first :: second :: ·) <$> evalPairs rest
end

/-- Every expression has one value. -/
theorem length_of_evalList {es : List Expr} {t t' : Trail} {vs : List Value}
    (h : evalList es t = .ok vs t') : vs.length = es.length := by
  induction es generalizing t t' vs with
  | nil =>
    cases h
    rfl
  | cons e rest ih =>
    rw [evalList] at h
    obtain ⟨v, t₁, -, h⟩ := bind_eq_ok.1 h
    obtain ⟨vs', hr, rfl⟩ := map_eq_ok.1 h
    rw [List.length_cons, List.length_cons, ih hr]

/-- Every pair has a key and a value. -/
theorem length_of_evalPairs {ps : List (Expr × Expr)} {t t' : Trail} {vs : List Value}
    (h : evalPairs ps t = .ok vs t') : vs.length = 2 * ps.length := by
  induction ps generalizing t t' vs with
  | nil =>
    cases h
    rfl
  | cons p rest ih =>
    rw [evalPairs] at h
    obtain ⟨v, t₁, -, h⟩ := bind_eq_ok.1 h
    obtain ⟨w, t₂, -, h⟩ := bind_eq_ok.1 h
    obtain ⟨vs', hr, rfl⟩ := map_eq_ok.1 h
    rw [List.length_cons, List.length_cons, List.length_cons, ih hr]
    omega

mutual
/-- The code for an expression pushes its value. -/
theorem lower_realizes {span : Span} : ∀ {e : Expr} {code : Stream},
    e.lower span = .ok code → Realizes code [] e.eval (fun v => [v])
  | nil, _, h | bool true, _, h | bool false, _, h | int _, _, h | str _, _, h | sym _, _, h => by
    rw [lower] at h
    cases h
    exact .pushing span _ rfl (fun _ => trivial) fun _ _ => rfl
  | self, _, h => by
    rw [lower] at h
    cases h
    exact .pushSelf span
  | localVar name, _, h => by
    rw [lower] at h
    cases h
    exact .localGet span name
  | instanceVar name, _, h => by
    rw [lower] at h
    cases h
    exact .instanceGet span name
  | globalVar name, _, h => by
    rw [lower] at h
    cases h
    exact .globalGet span name
  | array elements, _, h => by
    obtain ⟨parts, count, hp, hc, rfl⟩ := lower_array_ok h
    rw [eval]
    exact (lowerList_realizes hp).seqOf length_of_evalList ⟨_, List.length_replicate (a := .nil)⟩
      fun items hn => .map _ (.createArray span (hn.trans hc.symm))
  | hash pairs, _, h => by
    obtain ⟨parts, count, hp, hc, rfl⟩ := lower_hash_ok h
    rw [eval]
    exact (lowerPairs_realizes hp).seqOf length_of_evalPairs ⟨_, List.length_replicate (a := .nil)⟩
      fun flat hn => .map _ (.createHash span (by rw [hn, hc]))
  | call none method arguments, _, h => by
    obtain ⟨parts, count, hp, hc, rfl⟩ := lower_callSelf_ok h
    rw [eval]
    refine (lowerList_realizes hp).seqOf length_of_evalList ⟨_, List.length_replicate (a := .nil)⟩
      fun items hn => ?_
    rw [← List.singleton_append]
    exact ((Realizes.pushSelf span).frame items.reverse).seq fun receiver =>
      .send span method receiver items true false (hn.trans hc.symm)
  | call (some receiver) method arguments, _, h => by
    obtain ⟨parts, target, count, hp, ht, hc, rfl⟩ := lower_call_ok h
    rw [eval]
    exact (lowerList_realizes hp).seqOf length_of_evalList ⟨_, List.length_replicate (a := .nil)⟩
      fun items hn => ((lower_realizes ht).frame items.reverse).seq fun receiver =>
        .send span method receiver items false false (hn.trans hc.symm)

/-- The code for some expressions pushes their values, the first one lowest. -/
theorem lowerList_realizes {span : Span} : ∀ {es : List Expr} {code : Stream},
    lowerList span es = .ok code → Realizes code [] (evalList es) List.reverse
  | [], _, h => by
    rw [lowerList] at h
    cases h
    rw [evalList]
    exact .pure List.reverse []
  | e :: rest, _, h => by
    obtain ⟨first, more, hf, hm, rfl⟩ := lowerList_cons_ok h
    rw [evalList]
    exact (lower_realizes hf).seq fun v => .map _
      (((lowerList_realizes hm).frame [v]).cast rfl fun _ => List.reverse_cons.symm)

/-- The code for some pairs pushes their keys and values, the first one lowest. -/
theorem lowerPairs_realizes {span : Span} : ∀ {ps : List (Expr × Expr)} {code : Stream},
    lowerPairs span ps = .ok code → Realizes code [] (evalPairs ps) List.reverse
  | [], _, h => by
    rw [lowerPairs] at h
    cases h
    rw [evalPairs]
    exact .pure List.reverse []
  | (key, value) :: rest, _, h => by
    obtain ⟨first, second, more, hf, hs, hm, rfl⟩ := lowerPairs_cons_ok h
    rw [evalPairs]
    exact (lower_realizes hf).seq fun v => ((lower_realizes hs).frame [v]).seq fun w => .map _
      (((lowerPairs_realizes hm).frame [w, v]).cast rfl fun _ => by simp)
end

end Expr
end Formals
