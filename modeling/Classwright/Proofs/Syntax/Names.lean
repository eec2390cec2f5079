import Classwright.Proofs.Syntax.Steady

/-!
Names in a parsed source. Identifiers are made of letters and digits, so the type names that
declarations hold have nothing in them that would end the name of a class in a descriptor.
-/

namespace Classwright

/-- A text of letters and digits. -/
def Text.IsWord (t : Text) : Prop := ∀ c ∈ t, Text.isLetter c = true ∨ Text.isDigit c = true

theorem Text.IsWord.not_mem {t : Text} (h : t.IsWord) (hletter : Text.isLetter c = false)
    (hdigit : Text.isDigit c = false) : c ∉ t := by
  intro hc
  rcases h c hc with h | h
  · cases hletter.symm.trans h
  · cases hdigit.symm.trans h

theorem IsName.isWord (h : IsName name) : name.IsWord := by
  obtain ⟨b, w, -, -, -, hlexeme⟩ := h
  have hlexeme := hlexeme [] ⟨nofun, nofun, rfl⟩
  have hb := Source.isLetter_of_ident hlexeme
  rw [Source.lexeme, if_pos hb] at hlexeme
  obtain ⟨-, rfl⟩ := Prod.mk.inj (Except.ok.inj hlexeme)
  intro c hc
  rcases List.mem_cons.1 hc with rfl | hc
  · exact .inl hb
  · have hc := List.mem_takeWhile_imp hc
    exact Bool.or_eq_true_iff.1 hc

/-! ### Declarations -/

def TypeName.IsPlain (n : TypeName) : Prop := ascii ';' ∉ n.name

def TypeRef.IsPlain (r : TypeRef) : Prop := ∀ n ∈ r.members, n.IsPlain

structure FuncDecl.IsPlain (d : FuncDecl) : Prop where
  name : d.name.IsWord
  params : ∀ p ∈ d.params, p.type.IsPlain
  result : d.result = some r → r.IsPlain

structure StructDecl.IsPlain (d : StructDecl) : Prop where
  name : d.name.IsWord
  fields : ∀ f ∈ d.fields, f.type.IsPlain
  methods : ∀ m ∈ d.methods, m.IsPlain

/-- No type name in what a statement declares has a semicolon in it. -/
def Stmt.IsPlain : Stmt → Prop
  | .func d => d.IsPlain
  | .struct d => d.IsPlain
  | .typeAlias d => d.type.IsPlain
  | _ => True

theorem TypeName.Wf.isPlain {n : TypeName} (h : n.Wf) : n.IsPlain := by
  obtain ⟨first, parts, hfirst, hparts, hname⟩ := h
  unfold IsPlain
  rw [hname]
  simp only [List.mem_append, List.mem_flatMap, not_or, not_exists, not_and]
  exact ⟨hfirst.isWord.not_mem (by decide) (by decide),
    fun p hp => ⟨by decide, (hparts p hp).isWord.not_mem (by decide) (by decide)⟩⟩

theorem TypeRef.Wf.isPlain {r : TypeRef} (h : r.Wf) : r.IsPlain := fun n hn => (h n hn).isPlain

end Classwright
