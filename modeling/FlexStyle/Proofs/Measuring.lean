import FlexStyle.Proofs.Housing
import FlexStyle.Proofs.Property.Dimensions
import FlexStyle.Proofs.Reapplication

/-!
# What reaches the layout is not below zero

No table holds a length or percentage below zero, but what a length comes to in pixels depends on
the text style of its node, which comes from other declarations, here and further up. If no font
measures anything below zero, then no font size is below zero as long as no length in lines is
measured with a line height that is; and then neither is any dimension of a box. A line height below
zero can be written, and makes any length in lines one below zero. Percentages are never below zero.

- `Fonts.Signless`: fonts that measure nothing below zero.
- `TextStyle.not_toPixels_lt_zero`, `Table.LinesSignless`: when lengths keep their sign.
- `Tree.Signless`: trees with nothing below zero; `Tree.sizesSignless_flush` and
  `Tree.boxesSignless_flush` say what a flush keeps of that, `Tree.Signless.run` what a run does.
- `Tree.run_signless`: no dimension and no font size is below zero.
-/

namespace FlexStyle

/-! ## Fonts -/

/-- Whether no measure of a font is below zero. Nothing is asked of the native size. -/
structure FontMetrics.Signless (metrics : FontMetrics) : Prop where
  lineHeight : ¬ metrics.lineHeight < 0
  advance : ∀ c, ¬ metrics.advance c < 0
  glyphHeight : ∀ c, ¬ metrics.glyphHeight c < 0

theorem FontMetrics.signless_fixed {size : Single} (h : ¬ size < 0) : (fixed size).Signless := by
  have hpart : ∀ wide : Bool,
      ¬ (if wide then size else size * .ofRatio 1 2 : Single) < 0 := by
    intro wide
    cases wide with
    | true => exact h
    | false => exact Binary.not_mul_lt_zero h (Binary.not_ofRatio_lt_zero 1 2)
  exact ⟨Binary.not_mul_lt_zero h (Binary.not_ofRatio_lt_zero 6 5), fun c => hpart (isWide c),
    fun c => hpart (isWide c)⟩

/-- Whether no measure of any font is below zero. -/
def Fonts.Signless (fonts : Fonts) : Prop := ∀ id, (fonts id).Signless

theorem Fonts.signless_ofHost (config : Config) {host : Nat → FontMetrics}
    (h : ∀ i, (host i).Signless) : (ofHost config host).Signless
  | .builtIn => FontMetrics.signless_fixed (Binary.not_lt_zero_of_pos config.fontSize_pos)
  | .host i => h i

/-! ## Text styles -/

/-- Whether the lengths in lines that a table holds are measured with line heights that are not
below zero: font sizes with the line height from above, all others with that of the node. -/
def Table.LinesSignless (t : Table Property) (above own : Single) : Prop :=
  ∀ item ∈ t.liveList, item.2.2.any (·.countsLines) = true →
    ¬ (if item.2.1 = .fontSize then above else own) < 0

instance (t : Table Property) (above own : Single) : Decidable (t.LinesSignless above own) :=
  inferInstanceAs (Decidable (∀ item ∈ _, _ → _))

namespace Table

variable {t : Table Property} {g : Group} {p : Property} {values : List Value} {v : Value}
  {above own : Single}

theorem Tidy.admits_of_mem (h : t.Tidy) (hmem : (g, p, values) ∈ t.liveList) : p.Admits values := by
  obtain ⟨entry, hentry, hlive, rfl, rfl⟩ := mem_liveList.mp hmem
  exact h.admits (find?_of_mem h.keyed hentry) hlive

/-- Values that count are those of a live entry. -/
theorem exists_mem_of_values? (h : t.Keyed) (hvalues : t.values? p = some values) :
    ∃ g, (g, p, values) ∈ t.liveList := by
  rw [values?_eq] at hvalues
  obtain ⟨g, -, hg⟩ := List.exists_of_findSome?_eq_some hvalues
  exact ⟨g, (liveValues?_eq_some_iff h).mp hg⟩

theorem linesSignless_clearEvents :
    t.clearEvents.LinesSignless above own ↔ t.LinesSignless above own := by
  rw [LinesSignless, LinesSignless, liveList_clearEvents]

theorem LinesSignless.of_mem (h : t.LinesSignless above own)
    (hmem : (g, p, values) ∈ t.liveList) (hv : v ∈ values) (hlines : v.countsLines = true) :
    ¬ (if p = .fontSize then above else own) < 0 :=
  h (g, p, values) hmem (List.any_eq_true.mpr ⟨v, hv, hlines⟩)

end Table

namespace TextStyle

variable {fonts : Fonts} {above s : TextStyle} {own : Option FontId} {t : Table Property}

theorem not_scale_lt_zero (hsize : ¬ s.size < 0) : ¬ s.scale fonts < 0 := by
  unfold scale
  dsimp only
  split
  case isTrue hnative => exact Binary.not_div_lt_zero hsize hnative
  case isFalse => decide

/-- All units but the line height are not below zero if the font size is not. -/
theorem signless_metrics (hfonts : fonts.Signless) (hsize : ¬ s.size < 0) :
    (s.metrics fonts).Signless where
  fontSize := hsize
  zeroAdvance := Binary.not_mul_lt_zero ((hfonts s.font).advance _) (not_scale_lt_zero hsize)
  xHeight := Binary.not_mul_lt_zero ((hfonts s.font).glyphHeight _) (not_scale_lt_zero hsize)
  ideographAdvance := Binary.not_mul_lt_zero ((hfonts s.font).advance _) (not_scale_lt_zero hsize)

/-- A length that is not below zero comes to nothing below zero, unless it is one in lines and the
line height is below zero. -/
theorem not_toPixels_lt_zero (hfonts : fonts.Signless) (hsize : ¬ s.size < 0) {x : Single}
    {unit : LengthUnit} (hx : ¬ x < 0) (hline : unit = .lh → ¬ s.lineHeight < 0) :
    ¬ unit.toPixels (s.metrics fonts) x < 0 := by
  refine LengthUnit.not_toPixels_lt_zero (signless_metrics hfonts hsize) hx fun hunit => ?_
  exact Binary.not_mul_lt_zero
    (Binary.not_mul_lt_zero (hfonts s.font).lineHeight (not_scale_lt_zero hsize)) (hline hunit)

/-- A node has no font size below zero if it inherits none. -/
theorem not_resolved_size_lt_zero (hfonts : fonts.Signless) (ht : t.Tidy) {line : Single}
    (hlines : t.LinesSignless above.lineHeight line) (hsize : ¬ above.size < 0) :
    ¬ (resolved fonts above own t).size < 0 := by
  have hfrom : ¬ sizeFrom fonts above (own.getD above.font) (t.values? .fontSize) < 0 := by
    unfold sizeFrom
    split
    case h_1 x unit rest hvalues =>
      obtain ⟨g, hmem⟩ := Table.exists_mem_of_values? ht.keyed hvalues
      have hx : ¬ x < 0 := (ht.admits_of_mem hmem).signless _ List.mem_cons_self
      refine not_toPixels_lt_zero (s := { above with font := own.getD above.font }) hfonts hsize hx
        fun hunit => ?_
      exact hlines.of_mem hmem List.mem_cons_self (Value.countsLines_length.mpr hunit)
    case h_2 x rest hvalues =>
      obtain ⟨g, hmem⟩ := Table.exists_mem_of_values? ht.keyed hvalues
      have hx : ¬ x < 0 := (ht.admits_of_mem hmem).signless _ List.mem_cons_self
      exact Binary.not_div_lt_zero (Binary.not_mul_lt_zero hsize hx) (by decide)
    case h_3 => exact hsize
  show ¬ kept _ _ < 0
  unfold kept
  split
  · exact hsize
  · exact hfrom

end TextStyle

/-! ## Dimensions -/

/-- Whether a dimension is no number below zero. -/
def Dimension.Signless : Dimension → Prop
  | .points x => ¬ x < 0
  | .percent x => ¬ x < 0
  | _ => True

instance : (d : Dimension) → Decidable d.Signless
  | .points x | .percent x => inferInstanceAs (Decidable (¬ x < 0))
  | .undefined | .auto => .isTrue trivial

/-- The dimensions of the initial record are not numbers. -/
theorem BoxStyle.within_initial {P : Dimension → Prop} (hauto : P .auto)
    (hundefined : P .undefined) (webDefaults : Bool) : (initial webDefaults).Within P := by
  intro field
  cases field with
  | edge box side => cases box <;> cases side <;> exact hundefined
  | _ => first | exact hauto | exact hundefined

namespace Tree

variable {s t t' : Tree} {n root : NodeId} {node : Node} {applied : List NodeId}
  {P : Dimension → Prop} {commands : List Command}

/-! ## Font sizes -/

/-- Whether no font size is below zero. -/
structure SizesSignless (t : Tree) : Prop where
  root : ¬ t.rootText.size < 0
  node : ∀ {n node}, t.node? n = some node → ¬ node.text.size < 0

/-- A node inherits no font size below zero if neither the root text style nor its parent has
one. -/
theorem not_inherited_size_lt_zero (hroot : ¬ t.rootText.size < 0)
    (hparent : ∀ p node, t.parent? n = some p → t.node? p = some node → ¬ node.text.size < 0) :
    ¬ (t.inherited n).size < 0 := by
  unfold inherited
  cases hp : t.parent? n with
  | none => exact hroot
  | some p =>
    show ¬ (((t.node? p).map (·.text)).getD t.rootText).size < 0
    cases hnode : t.node? p with
    | none => exact hroot
    | some node => exact hparent p node hp hnode

/-- Whether the lengths in lines of a node, with the line heights of the tree, are not below
zero. -/
def LinesSignless (t : Tree) (n : NodeId) : Prop :=
  ∀ node ∈ t.node? n, node.table.LinesSignless (t.inherited n).lineHeight node.text.lineHeight

instance (t : Tree) (n : NodeId) : Decidable (t.LinesSignless n) :=
  inferInstanceAs (Decidable (∀ node ∈ t.node? n, _))

theorem sizesSignless_create (hsizes : t.SizesSignless) : t.create.2.SizesSignless := by
  refine ⟨hsizes.root, fun {n node} hnode => ?_⟩
  rcases node?_create_cases hnode with ⟨-, rfl⟩ | ⟨-, hold⟩
  · exact hsizes.root
  · exact hsizes.node hold

theorem sizesSignless_evolves {ordered : Prop} (he : s.Evolves ordered t)
    (hsizes : s.SizesSignless) : t.SizesSignless := by
  refine ⟨he.rootText ▸ hsizes.root, fun {n after} hafter => ?_⟩
  obtain ⟨before, hbefore, hkept⟩ := he.node hafter
  rw [hkept.text]
  exact hsizes.node hbefore

theorem sizesSignless_flush (h : t.Sound) (hok : t.flush root = .ok (t', applied))
    (hfonts : t'.fonts.Signless) (hlines : ∀ n ∈ applied, t'.LinesSignless n)
    (hsizes : t.SizesSignless) : t'.SizesSignless := by
  have hroot : t'.rootText = t.rootText := (base_flush h hok).rootText
  have hsound := sound_flush h hok
  refine ⟨hroot ▸ hsizes.root, ?_⟩
  -- a node has a parent of less depth, whose font size has been settled before
  intro n after hafter
  induction hd : t'.shape.depth n using Nat.strongRecOn generalizing n after with
  | ind d ih =>
    rcases flush_node_cases h hok hafter with ⟨hn, node, u, hnode, hu, rfl⟩ | ⟨hbefore, -⟩
    · have habove : ¬ (t'.inherited n).size < 0 := by
        refine not_inherited_size_lt_zero (hroot ▸ hsizes.root) fun p parent hp hparent => ?_
        refine ih _ ?_ hparent rfl
        rw [← hd, Forest.depth_of_parent? hsound.nodup hp]
        exact Nat.lt_succ_self _
      show ¬ (u.foundText n node).size < 0
      rw [foundText_eq, ← hu.fonts, ← hu.inherited]
      exact TextStyle.not_resolved_size_lt_zero hfonts (h.tidy hnode)
        (Table.linesSignless_clearEvents.mp (hlines n hn _ hafter)) habove
    · exact hsizes.node hbefore

/-! ## Records -/

/-- Whether all dimensions in the boxes of all nodes are of a kind. -/
def BoxesWithin (P : Dimension → Prop) (t : Tree) : Prop :=
  ∀ n node style, t.node? n = some node → t.store.style? node.box = some style → style.Within P

theorem boxesWithin_create (h : t.Sound) (hinitial : t.store.initial.Within P)
    (hbefore : t.BoxesWithin P) : t.create.2.BoxesWithin P := by
  intro n node style hnode hstyle
  rcases node?_create_cases hnode with ⟨-, rfl⟩ | ⟨-, hold⟩
  · rw [style?_create_self h] at hstyle
    cases hstyle
    exact hinitial
  · rw [style?_create_of_node? h hold] at hstyle
    exact hbefore n node style hold hstyle

theorem boxesWithin_evolves {ordered : Prop} (he : s.Evolves ordered t)
    (hbefore : s.BoxesWithin P) : t.BoxesWithin P := by
  intro n after style hafter hstyle
  obtain ⟨before, hnode, hkept⟩ := he.node hafter
  rw [hkept.box, hkept.style?] at hstyle
  exact hbefore n before style hnode hstyle

/-- A flush writes dimensions that come from the values of live entries, measured with the text
styles that it has found. -/
theorem boxesWithin_flush (h : t.Sound) (hok : t.flush root = .ok (t', applied))
    (hinitial : t'.store.initial.Within P) (hzero : P (.points 0))
    (hvalues : ∀ n ∈ applied, ∀ node ∈ t'.node? n, ∀ g p values,
      (g, p, values) ∈ node.table.liveList → p ≠ .fontSize → ∀ v ∈ values, ∀ d,
        Dimension.ofValue? (node.text.metrics t'.fonts) v = some d → P d)
    (hbefore : t.BoxesWithin P) : t'.BoxesWithin P := by
  intro n after style' hafter hstyle'
  rcases flush_node_cases h hok hafter with ⟨hn, node, u, hnode, hu, rfl⟩ | ⟨hold, hslot⟩
  · obtain ⟨style, hstyle⟩ := h.housed hnode
    obtain rfl : u.foundStyle n node style = style' :=
      Option.some.inj ((hu.style? hstyle).symm.trans hstyle')
    refine BoxStyle.within_assignAll (hbefore n node style hnode hstyle)
      (Table.within_boxAssignments (hu.initial ▸ hinitial) hzero fun g p values hmem => ?_)
    rw [← hu.fonts]
    exact hvalues n hn _ hafter g p values ((Table.liveList_clearEvents node.table).symm ▸ hmem)
  · rw [BoxStore.style?, hslot] at hstyle'
    exact hbefore n after style' hold hstyle'

/-- What holds of all dimensions in the boxes of nodes holds of all that the store has. -/
theorem BoxesWithin.style (h : t.BoxesWithin P) (howned : t.Owned) {id : BoxId} {style : BoxStyle}
    (hstyle : t.store.style? id = some style) : style.Within P := by
  have hslot : (t.store.slot? id).isSome = true := by
    obtain ⟨box, hbox, -⟩ := Option.map_eq_some_iff.mp hstyle
    exact Option.isSome_iff_exists.mpr ⟨box, hbox⟩
  obtain ⟨n, hn⟩ := howned id hslot
  obtain ⟨node, hnode, rfl⟩ := box?_eq_some_iff.mp hn
  exact h n node style hnode hstyle

/-! ## Runs -/

theorem initial_within (h : t.Sound) (hauto : P .auto) (hundefined : P .undefined) :
    t.store.initial.Within P := by
  rw [h.initial]
  exact BoxStyle.within_initial hauto hundefined _

/-- Percentages come from values alone. -/
theorem Reachable.percents_signless (h : Reachable AnyCommand t) :
    t.BoxesWithin fun d => ∀ x, d = .percent x → ¬ x < 0 := by
  have hinitial : ∀ s : Tree, s.Sound →
      s.store.initial.Within fun d => ∀ x, d = .percent x → ¬ x < 0 :=
    fun s hs => initial_within hs (by simp) (by simp)
  refine h.induction (P := BoxesWithin _) ?_ ?_ ?_ ?_
  · intro config fonts font n node style hnode
    simp [withFont, node?] at hnode
  · exact fun s hs hbefore => boxesWithin_create hs (hinitial s hs) hbefore
  · intro s s' root applied hs hok hbefore
    have hs' := sound_flush hs hok
    refine boxesWithin_flush hs hok (hinitial s' hs') (by simp) ?_ hbefore
    rintro n - node hnode g p values hmem - v hv d hd x rfl
    have hsign := ((hs'.tidy hnode).admits_of_mem hmem).signless v hv
    cases v with
    | percentage y =>
      cases hd
      exact hsign
    | _ => cases hd
  · exact fun s c _ _ he hbefore => boxesWithin_evolves he hbefore

/-- Whether a command, if it is a flush, measures lengths in lines only with line heights that are
not below zero. -/
def MeasuresUpward (t : Tree) : Command → Prop
  | .flush root => ∀ result ∈ (t.flush root).toOption, ∀ n ∈ result.2, result.1.LinesSignless n
  | _ => True

instance (t : Tree) : (c : Command) → Decidable (t.MeasuresUpward c)
  | .flush root => inferInstanceAs (Decidable (∀ result ∈ (t.flush root).toOption, _))
  | .create | .append .. | .detach .. | .removeSubtree .. | .set .. | .setText .. | .remove .. |
    .clear .. | .copyStyles .. | .setFont .. | .setInlineText .. | .takeDirty => .isTrue trivial

/-- Whether all commands of a run measure upward, each in the tree that it finds. -/
def RunsUpward (t : Tree) : List Command → Prop
  | [] => True
  | c :: commands => t.MeasuresUpward c ∧ (t.after c).RunsUpward commands

instance decidableRunsUpward : (commands : List Command) → (t : Tree) →
    Decidable (t.RunsUpward commands)
  | [], _ => .isTrue trivial
  | c :: commands, t =>
    have := decidableRunsUpward commands (t.after c)
    inferInstanceAs (Decidable (_ ∧ _))

/-- A flush that measures no length in lines with a line height below zero finds no dimension below
zero. -/
theorem boxesSignless_flush (h : t.Sound) (hok : t.flush root = .ok (t', applied))
    (hfonts : t'.fonts.Signless) (hlines : ∀ n ∈ applied, t'.LinesSignless n)
    (hsizes : t'.SizesSignless) (hbefore : t.BoxesWithin Dimension.Signless) :
    t'.BoxesWithin Dimension.Signless := by
  have hs' := sound_flush h hok
  have hzero : ¬ (0 : Single) < 0 := by decide
  refine boxesWithin_flush h hok (initial_within hs' trivial trivial) hzero ?_ hbefore
  intro n hn node hnode g p values hmem hp v hv d hd
  have hsign := ((hs'.tidy hnode).admits_of_mem hmem).signless v hv
  cases v with
  | length x unit =>
    cases hd
    refine TextStyle.not_toPixels_lt_zero hfonts (hsizes.node hnode) hsign fun hunit => ?_
    have hline := (hlines n hn node hnode).of_mem hmem hv (Value.countsLines_length.mpr hunit)
    rwa [if_neg hp] at hline
  | percentage x =>
    cases hd
    exact hsign
  | auto =>
    cases hd
    trivial
  | _ => cases hd

/-- A tree with nothing below zero, and fonts that measure nothing below zero. -/
structure Signless (t : Tree) : Prop where
  fonts : t.fonts.Signless
  sizes : t.SizesSignless
  boxes : t.BoxesWithin Dimension.Signless

theorem signless_withFont {config : Config} {fonts : Fonts} (hfonts : fonts.Signless)
    (font : FontId) : (withFont config fonts font).Signless := by
  refine ⟨hfonts, ⟨Binary.not_lt_zero_of_pos config.fontSize_pos, ?_⟩, ?_⟩
  · intro n node hnode
    simp [withFont, node?] at hnode
  · intro n node style hnode
    simp [withFont, node?] at hnode

theorem Signless.after (h : t.Signless) (hsound : t.Sound) {c : Command}
    (hupward : t.MeasuresUpward c) : (t.after c).Signless := by
  rcases after_cases hsound c with rfl | ⟨root, applied, rfl, hok⟩ | hevolves
  · exact ⟨h.fonts, sizesSignless_create h.sizes,
      boxesWithin_create hsound (initial_within hsound trivial trivial) h.boxes⟩
  · have hfonts : (t.after (.flush root)).fonts.Signless :=
      (base_flush hsound hok).fonts ▸ h.fonts
    have hlines : ∀ n ∈ applied, (t.after (.flush root)).LinesSignless n :=
      hupward (t.after (.flush root), applied) (by rw [hok]; rfl)
    have hsizes := sizesSignless_flush hsound hok hfonts hlines h.sizes
    exact ⟨hfonts, hsizes, boxesSignless_flush hsound hok hfonts hlines hsizes h.boxes⟩
  · exact ⟨hevolves.fonts ▸ h.fonts, sizesSignless_evolves hevolves h.sizes,
      boxesWithin_evolves hevolves h.boxes⟩

theorem Signless.run (h : t.Signless) (hreach : Reachable AnyCommand t)
    (hupward : t.RunsUpward commands) : (t.run commands).Signless := by
  induction commands generalizing t with
  | nil => exact h
  | cons c commands ih =>
    obtain ⟨hfirst, hrest⟩ := hupward
    exact ih (h.after hreach.sound hfirst) (hreach.step trivial) hrest

/-- **No dimension and no font size is below zero**, whatever a host does, if its fonts measure
nothing below zero and no flush measures a length in lines with a line height below zero. No
percentage is below zero in any case. -/
theorem run_signless (config : Config) (host : Nat → FontMetrics) (font : FontId)
    (commands : List Command) (hhost : ∀ i, (host i).Signless) :
    let start := withFont config (.ofHost config host) font
    let t := start.run commands
    (∀ id style, t.store.style? id = some style →
      ∀ field x, style.dimension field = .percent x → ¬ x < 0) ∧
    (start.RunsUpward commands →
      (∀ id style, t.store.style? id = some style →
        ∀ field, (style.dimension field).Signless) ∧
      ∀ n node, t.node? n = some node → ¬ node.text.size < 0) := by
  intro start t
  have hstart : Reachable AnyCommand start := .start config (.ofHost config host) font
  have hreach : Reachable AnyCommand t := hstart.run commands
  refine ⟨fun id style hstyle field => hreach.percents_signless.style hreach.owned hstyle field,
    fun hupward => ?_⟩
  have hsignless : t.Signless :=
    (signless_withFont (Fonts.signless_ofHost config hhost) font).run hstart hupward
  exact ⟨fun id style hstyle => hsignless.boxes.style hreach.owned hstyle,
    fun n node hnode => hsignless.sizes.node hnode⟩

/-- Twice the line height of a heading is above zero. -/
theorem run_signless_heading :
    let start := withFont .default (.ofHost .default fun _ => .fixed 16) .builtIn
    let commands : List Command := [.create, .set ⟨0⟩ .inline "line-height" [.text "1.5"],
      .set ⟨0⟩ .inline "font-size" [.text "150%"], .set ⟨0⟩ .inline "width" [.text "2lh"],
      .flush ⟨0⟩]
    let t := start.run commands
    (FontMetrics.fixed 16).Signless ∧
      ∃ node style, t.node? ⟨0⟩ = some node ∧ t.store.style? node.box = some style ∧
        style.dimension .width = .points (.ofRatio 432 5) ∧
        (style.dimension .width).Signless ∧ ¬ node.text.size < 0 := by
  intro start commands t
  have hfont : (FontMetrics.fixed 16).Signless := FontMetrics.signless_fixed (by decide)
  obtain ⟨hupward, node, hnode, style, hstyle, hwidth⟩ :
      start.RunsUpward commands ∧ ∃ node ∈ t.node? ⟨0⟩, ∃ style ∈ t.store.style? node.box,
        style.dimension .width = .points (.ofRatio 432 5) := by
    decide +kernel
  obtain ⟨hdimensions, hsizes⟩ := (run_signless .default _ .builtIn _ fun _ => hfont).2 hupward
  exact ⟨hfont, node, style, hnode, hstyle, hwidth, hdimensions _ style hstyle .width,
    hsizes ⟨0⟩ node hnode⟩

/-- A line height below zero makes a width below zero. -/
theorem not_every_dimension_is_signless :
    ¬ ∀ (config : Config) (host : Nat → FontMetrics) (font : FontId) (commands : List Command)
        (id : BoxId) (style : BoxStyle) (field : DimensionField),
      (∀ i, (host i).Signless) →
      ((withFont config (.ofHost config host) font).run commands).store.style? id = some style →
      (style.dimension field).Signless := by
  intro hall
  let t := (withFont .default (.ofHost .default fun _ => .fixed 16) .builtIn).run
    [.create, .set ⟨0⟩ .inline "line-height" [.text "-1"],
      .set ⟨0⟩ .inline "width" [.text "1lh"], .flush ⟨0⟩]
  obtain ⟨node, hnode, style, hstyle, hwidth⟩ :
      ∃ node ∈ t.node? ⟨0⟩, ∃ style ∈ t.store.style? node.box,
        ¬ (style.dimension .width).Signless := by
    decide +kernel
  exact hwidth (hall .default _ .builtIn _ node.box style .width
    (fun _ => FontMetrics.signless_fixed (by decide)) hstyle)

end Tree

end FlexStyle
