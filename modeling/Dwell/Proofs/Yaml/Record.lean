import Dwell.Scenario.Writing
import Dwell.Yaml.Reading
import Mathlib.Data.List.Forall2
import Mathlib.Data.List.Nodup
import Mathlib.Order.Basic

/-!
# Records that are read back

A record that is written with all its fields is read as these fields (`fields_recordNode`), and one
whose variant is named by its first field is read as that variant with the others
(`tagged_recordNode`). Both hold for every record whose names are distinct.
-/

namespace Dwell

open Yaml

section Text

variable (s : String)

theorem text_ofText : (Node.ofText s).text = .ok s := rfl

theorem settledText_ofText : (Node.ofText s).settledText = .ok s := rfl

theorem settle_ofText (room : Nat) : (Node.ofText s).settle room = .ok () := rfl

theorem settledKey_ofText (names : List String) : (Node.ofText s).settledKey names = .ok s := rfl

end Text

section Record

variable {fs : Fields} {names : List String} {key : String} {room : Nat}

/-- The entries of a record. -/
def entriesOf (fs : Fields) : List (Node × Node) :=
  fs.map fun f => (.ofText f.1, f.2)

/-- Fields with distinct names are added one after the other. -/
theorem foldlM_add {readKey : Node → Except Yaml.Fault String}
    (hkey : ∀ s, readKey (.ofText s) = .ok s) : ∀ (fs acc : Fields),
    ((acc ++ fs).map Prod.fst).Nodup → (∀ f ∈ fs, f.1 ∈ names) →
      (entriesOf fs).foldlM (fun fs e => do fs.add names (← readKey e.1) e.2) acc
        = .ok (acc ++ fs)
  | [], acc, _, _ => by rw [List.append_nil]; rfl
  | (name, n) :: fs, acc, hnodup, hnames => by
    have hnew : acc.lookup name = none := by
      rw [List.lookup_eq_none_iff]
      intro f hf
      rw [List.map_append, List.nodup_append] at hnodup
      exact bne_iff_ne.2 (hnodup.2.2 f.1 (List.mem_map_of_mem hf) name (by simp)).symm
    have hadd : Fields.add names acc name n = .ok (acc ++ [(name, n)]) := by
      rw [Fields.add, if_pos (hnames _ List.mem_cons_self), hnew]
      rfl
    have hrest := foldlM_add hkey fs (acc ++ [(name, n)]) (by simpa using hnodup)
      fun f hf => hnames f (List.mem_cons_of_mem _ hf)
    change ((readKey (.ofText name) >>= fun s => acc.add names s n) >>= _) = _
    rw [hkey]
    change (acc.add names name n >>= _) = _
    rw [hadd]
    exact hrest.trans (by rw [List.append_assoc]; rfl)

/-- A record that gives every field is read as its fields. -/
theorem fields_recordNode (hnames : fs.map Prod.fst = names) (hnodup : names.Nodup) :
    (recordNode fs).fields names = .ok fs := by
  subst hnames
  exact foldlM_add text_ofText fs [] hnodup fun _ hf => List.mem_map_of_mem hf

theorem splitVariant_entriesOf (hkey : key ∉ fs.map Prod.fst) (n : Node) :
    splitVariant key (entriesOf ((key, n) :: fs)) = ([n], entriesOf fs) := by
  unfold splitVariant
  extract_lets isTag
  have hfirst : isTag (.ofText key, n) = true := beq_self_eq_true key
  have hrest : ∀ e ∈ entriesOf fs, isTag e = false := fun e he => by
    obtain ⟨f, hf, rfl⟩ := List.mem_map.1 he
    exact beq_false_of_ne fun h => hkey (h ▸ List.mem_map_of_mem hf)
  rw [show entriesOf ((key, n) :: fs) = (.ofText key, n) :: entriesOf fs from rfl,
    List.filter_cons_of_pos hfirst, List.filter_cons_of_neg (by simp [hfirst]),
    List.filter_eq_nil_iff.2 fun e he => by simp [hrest e he],
    List.filter_eq_self.2 fun e he => by simp [hrest e he]]
  rfl

theorem settle_recordNode (hroom : 0 < room) (hfs : ∀ f ∈ fs, f.2.settle (room - 1) = .ok ()) :
    (recordNode fs).settle room = .ok () := by
  have hentries : ∀ fs : Fields, (∀ f ∈ fs, f.2.settle (room - 1) = .ok ()) →
      Node.settleEntries (room - 1) (entriesOf fs) = .ok () := by
    intro fs
    induction fs with
    | nil => exact fun _ => rfl
    | cons f fs ih =>
      intro h
      have hrest := ih fun g hg => h g (List.mem_cons_of_mem _ hg)
      change (f.2.settle (room - 1) >>= fun _ => Node.settleEntries (room - 1) (entriesOf fs)) = _
      rw [h f List.mem_cons_self]
      exact hrest
  rw [recordNode, Node.settle, if_neg (Nat.pos_iff_ne_zero.1 hroom)]
  exact hentries fs hfs

theorem settle_seq {ns : List Node} (hroom : 0 < room)
    (hns : ∀ n ∈ ns, n.settle (room - 1) = .ok ()) : (Node.seq ns).settle room = .ok () := by
  have hall : ∀ ns : List Node, (∀ n ∈ ns, n.settle (room - 1) = .ok ()) →
      Node.settleAll (room - 1) ns = .ok () := by
    intro ns
    induction ns with
    | nil => exact fun _ => rfl
    | cons n ns ih =>
      intro h
      rw [Node.settleAll, h n List.mem_cons_self]
      exact ih fun m hm => h m (List.mem_cons_of_mem _ hm)
  rw [Node.settle, if_neg (Nat.pos_iff_ne_zero.1 hroom)]
  exact hall ns hns

/-- A record whose variant is named by its first field is read as that variant, and its other
fields as they are. -/
theorem tagged_recordNode (type : String) (hroom : 0 < room)
    (hfs : ∀ f ∈ fs, f.2.settle (room - 1) = .ok ()) (hnames : fs.map Prod.fst = names)
    (hnodup : (key :: names).Nodup) :
    ∃ fields, (recordNode ((key, .ofText type) :: fs)).tagged key room = .ok (type, fields) ∧
      fields names = .ok fs := by
  subst hnames
  obtain ⟨hkey, hnodup⟩ := List.nodup_cons.1 hnodup
  have hsettle : (recordNode ((key, .ofText type) :: fs)).settle room = .ok () :=
    settle_recordNode hroom fun f hf =>
      (List.mem_cons.1 hf).elim (fun h => h ▸ settle_ofText _ _) (hfs f)
  have hfields := foldlM_add (fun s => settledKey_ofText s (fs.map Prod.fst)) fs [] hnodup
    fun f hf => List.mem_map_of_mem hf
  refine ⟨fun names => (entriesOf fs).foldlM
    (fun fs e => do fs.add names (← e.1.settledKey names) e.2) [], ?_, hfields⟩
  have hsplit := splitVariant_entriesOf hkey (.ofText type)
  unfold entriesOf at hsplit
  unfold Node.tagged
  rw [hsettle]
  dsimp only [recordNode, bind, Except.bind]
  rw [hsplit]
  rfl

end Record

section Elements

variable {α β γ : Type} {f : α → γ}

theorem ok_bind (a : α) (k : α → Except Yaml.Fault β) : (Except.ok a >>= k) = k a := rfl

/-- What is read element by element, each as one that it is related to. -/
theorem mapM_map {R : α → β → Prop} {g : γ → Except Yaml.Fault β} : ∀ {as : List α},
    (∀ a ∈ as, ∃ b, g (f a) = .ok b ∧ R a b) →
      ∃ bs, (as.map f).mapM g = .ok bs ∧ List.Forall₂ R as bs
  | [], _ => ⟨[], rfl, .nil⟩
  | a :: as, h => by
    obtain ⟨b, hb, hab⟩ := h a List.mem_cons_self
    obtain ⟨bs, hbs, hasbs⟩ := mapM_map fun a' ha' => h a' (List.mem_cons_of_mem _ ha')
    refine ⟨b :: bs, ?_, .cons hab hasbs⟩
    rw [List.map_cons, List.mapM_cons, hb, hbs]
    rfl

theorem mapM_map_eq {g : γ → Except Yaml.Fault α} {as : List α}
    (h : ∀ a ∈ as, g (f a) = .ok a) : (as.map f).mapM g = .ok as := by
  obtain ⟨bs, hbs, heq⟩ := mapM_map fun a ha => ⟨a, h a ha, rfl⟩
  rw [List.forall₂_eq_eq_eq] at heq
  exact heq ▸ hbs

end Elements

end Dwell
