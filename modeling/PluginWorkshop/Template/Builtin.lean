import PluginWorkshop.Template.Basic

/-!
# Built-in templates

The class files, the first manifest of a new plugin and the helper file for editors.
-/

namespace PluginWorkshop

/-- Names of the built-in templates. -/
inductive TemplateName where
  | model
  | postType
  | taxonomy
  /-- The manifest of a new plugin. -/
  | manifest
  /-- The file that tells an editor the class of the plugin object. -/
  | ideHelper
  deriving DecidableEq, Repr

namespace Template

private def slot (name : String) : Piece := .slot name

theorem renderPiece_slot (vars : TemplateVars) (name : String) :
    renderPiece vars (slot name) = (vars.get? name).getD "" := rfl

/-- Lines without slots. -/
private def plain (lines : List String) : List (List Piece) := lines.map fun line => [.text line]

/-- The start of a class file, up to the opening brace of the class. -/
def classHead : List (List Piece) := [
  ["<?php"],
  [],
  ["namespace ", slot "namespace", ";"],
  [],
  ["use WPTrait\\Model;"],
  [],
  ["class ", slot "class", " extends Model"],
  ["\x7b"]]

def model : Template := .ofLines <| classHead ++ plain [
  "    public function __construct($plugin)",
  "    \x7b",
  "        parent::__construct($plugin);",
  "    \x7d",
  "\x7d"]

def postType : Template := .ofLines <| classHead ++ plain [
  "    public $slug;",
  "    public $name;",
  "    public $args;",
  "",
  "    public function __construct($slug, $name, $args = array(), $plugin = array())",
  "    \x7b",
  "        parent::__construct($plugin);",
  "        $this->slug = $slug;",
  "        $this->name = $name;",
  "        $this->args = $args;",
  "        add_action('init', array($this, 'register'));",
  "    \x7d",
  "",
  "    public function register()",
  "    \x7b",
  "        register_post_type($this->slug, array_merge(array(",
  "            'label' => $this->name,",
  "            'public' => true,",
  "            'show_in_rest' => true,",
  "            'supports' => array('title', 'editor', 'thumbnail'),",
  "        ), $this->args));",
  "    \x7d",
  "\x7d"]

def taxonomy : Template := .ofLines <| classHead ++ plain [
  "    public $slug;",
  "    public $name;",
  "    public $post_types;",
  "    public $args;",
  "",
  "    public function __construct($slug, $name, $post_types = array('post'), " ++
    "$args = array(), $plugin = array())",
  "    \x7b",
  "        parent::__construct($plugin);",
  "        $this->slug = $slug;",
  "        $this->name = $name;",
  "        $this->post_types = $post_types;",
  "        $this->args = $args;",
  "        add_action('init', array($this, 'register'));",
  "    \x7d",
  "",
  "    public function register()",
  "    \x7b",
  "        register_taxonomy($this->slug, $this->post_types, array_merge(array(",
  "            'label' => $this->name,",
  "            'public' => true,",
  "            'hierarchical' => true,",
  "            'show_in_rest' => true,",
  "        ), $this->args));",
  "    \x7d",
  "\x7d"]

def manifest : Template := .ofLines [
  ["\x7b"],
  ["    \"name\": \"", slot "package_name", "\","],
  ["    \"description\": \"", slot "description", "\","],
  ["    \"type\": \"wordpress-plugin\","],
  ["    \"require\": \x7b"],
  ["        \"php\": \">=7.4\","],
  ["        \"mehrshaddarzi/wp-trait\": \"", slot "wp_trait_version", "\""],
  ["    \x7d,"],
  ["    \"autoload\": \x7b"],
  ["        \"psr-4\": \x7b"],
  ["            \"", slot "namespace_key", "\": \"", slot "source_dir", "\""],
  ["        \x7d"],
  ["    \x7d"],
  ["\x7d"]]

def ideHelper : Template := .ofLines [
  ["<?php"],
  ["/**"],
  [" * IDE helper for the ", slot "plugin_slug", " plugin."],
  [" *"],
  [" * Never loaded by WordPress. It only tells the editor which class"],
  [" * $", slot "variable", " holds so that properties wired into the plugin resolve."],
  [" */"],
  [],
  ["if (false) \x7b"],
  ["    /** @var ", slot "main_class", " $", slot "variable", " */"],
  ["    $", slot "variable", " = null;"],
  ["\x7d"]]

end Template

namespace TemplateName

def all : List TemplateName := [model, postType, taxonomy, manifest, ideHelper]

/-- The name by which the template is called. -/
def name : TemplateName → String
  | model => "model"
  | postType => "post-type"
  | taxonomy => "taxonomy"
  | manifest => "composer-fragment"
  | ideHelper => "ide-helper"

def template : TemplateName → Template
  | model => .model
  | postType => .postType
  | taxonomy => .taxonomy
  | manifest => .manifest
  | ideHelper => .ideHelper

/-- The template that a text names. -/
def parse (text : String) : Except PluginError TemplateName :=
  match all.find? (·.name == text) with
  | some name => .ok name
  | none => .error (.invalidArgument ("unknown template: '" ++ text ++ "'"))

/-- The text of the template with its slots filled. -/
def render (name : TemplateName) (vars : TemplateVars) : String := name.template.render vars

end TemplateName

namespace TemplateEngine

/-- The built-in templates under their names. -/
def builtin : TemplateEngine := ⟨TemplateName.all.map fun name => (name.name, name.template)⟩

end TemplateEngine

end PluginWorkshop
