import Retrace.Site.Layout

/-!
# Pages about the language

The front page, the page on which programs can be tried, and the page about the project.
-/

set_option autoImplicit false
namespace Retrace
namespace Site

/-- The front page. -/
def home : Page where
  title := "Home | Ulto Project"
  content :=
    ["",
     "<div class=\"heading\">",
     "    <h1>The Ulto Project</h1>",
     "</div>",
     "<div class=\"content\">",
     "    <p>",
     "        Ulto Project is an innovative leap towards the future of sustainable " ++
       "computing. Our mission is to revolutionize how programming languages interact with " ++
       "hardware, emphasizing energy efficiency without compromising performance. With " ++
       "global energy demands on the rise, the Information and Communication Technology " ++
       "(ICT) sector is under increasing pressure to minimize its carbon footprint. Ulto " ++
       "addresses this challenge head-on.",
     "    </p>",
     "",
     "    <p>",
     "        Ulto is a reversible imperative programming language designed with the " ++
       "principles of energy conservation at its core. By leveraging techniques such as " ++
       "memory management profiling, lazy evaluations, and minimalistic design, Ulto ensures " ++
       "that every line of code you write contributes to a greener future.",
     "    </p>",
     "",
     "    <h4>Features</h4>",
     "    <ul>",
     "        <li><strong>Energy Efficiency:</strong> Ulto is built to reduce the energy " ++
       "costs associated with software execution, making it an ideal choice for sustainable " ++
       "computing.</li>",
     "        <li><strong>Performance-Focused:</strong> Despite its focus on energy " ++
       "efficiency, Ulto does not compromise on performance. It balances the trade-offs " ++
       "between speed, memory usage, and power consumption.</li>",
     "    </ul>",
     "",
     "    <p>Join us in building a sustainable future, one line of code at a time.</p>",
     "",
     "    <a href=\"/about\">Learn More About Ulto</a>",
     "</div>",
     "",
     ""]

/-- The page on which programs can be tried. -/
def codespace : Page where
  title := "Codespace | Ulto Project"
  content :=
    ["",
     "",
     "<div class=\"container mt-5\">",
     "    <div class=\"heading\">",
     "       <h1>Ulto Codespace</h1>",
     "    </div>",
     "    <p>",
     "        Ulto Codespace comes with basic package of example sets which you can try it " ++
       "out. The codespace is built in order to make people familiar with the language " ++
       "syntaxes and understand how to create programs. Feel free to explore.",
     "    </p>",
     "    <div class=\"dropdown\">",
     "        <button class=\"btn btn-danger\" onclick=\"clearCode()\">Clear</button>",
     "        <button class=\"btn btn-success\" onclick=\"runCode()\">Run Code</button>",
     "        <button class=\"btn btn-secondary dropdown-toggle\" type=\"button\" " ++
       "id=\"dropdownMenuButton\" data-bs-toggle=\"dropdown\" aria-expanded=\"false\">",
     "            Examples",
     "        </button>",
     "",
     "        <ul class=\"dropdown-menu\" aria-labelledby=\"dropdownMenuButton\">",
     "            <li><a class=\"dropdown-item\" href=\"#\" " ++
       "onclick=\"loadExampleCode('reversal.ul')\">Assignment Reversal</a></li>",
     "            <li><a class=\"dropdown-item\" href=\"#\" " ++
       "onclick=\"loadExampleCode('simple.ul')\">Simple Sequence Reversal </a></li>",
     "            <li><a class=\"dropdown-item\" href=\"#\" " ++
       "onclick=\"loadExampleCode('fib.ul')\">Fibonacci Sequence </a></li>",
     "            <li><a class=\"dropdown-item\" href=\"#\" " ++
       "onclick=\"loadExampleCode('primefac.ul')\">Prime Factorisation </a></li>",
     "            <li><a class=\"dropdown-item\" href=\"#\" " ++
       "onclick=\"loadExampleCode('squareroot.ul')\">Square Root </a></li>",
     "        </ul>",
     "    </div>",
     "    <div class=\"editor-output-container\">",
     "        <div class=\"code-editor\">",
     "            <h3>Source Code:</h3>",
     "            <textarea id=\"code\">print(`olleh, dlrow!`)</textarea>",
     "        </div>",
     "",
     "        <div class=\"output\">",
     "            <h3>Output:</h3>",
     "            <pre id=\"output\"></pre>",
     "        </div>",
     "    </div>",
     "</div>",
     ""]

/-- The page about the project. -/
def about : Page where
  title := "About | Ulto Project"
  content :=
    ["",
     "<div class=\"heading\">",
     "    <h1>About Ulto</h1>",
     "</div>",
     "<div class=\"content\">",
     "",
     "    <p>",
     "        It is estimated that around 2% of global greenhouse emissions are accounted " ++
       "by Information and Communications Technology (ICT) sector which will grow up to 14% " ++
       "along with digital data sizing up to 175 zettabytes. Thus, large amounts of energy " ++
       "are required to store and process these data which inadvertently influence the " ++
       "climate change and the entire green future the world is moving towards. Recent " ++
       "trends shows that the current ICT market is shifting progressively to cloud based " ++
       "solutions.  A paper published by Buyya, Ilager and Arroba stated that there are " ++
       "eight million active data centres worldwide and they are projected to grow over 12% " ++
       "per year. Most of them rely on fossil fuel-based energy (i.e., except for green data " ++
       "centres) resulting in high carbon footprints and are projected to contribute up to " ++
       "5.5% of the world’s carbon emission by 2025. Among these 50% energy is solely " ++
       "consumed by equipment operation and cooling. The remaining are consumed based on " ++
       "what type of software applications we are running on. There are evidences that shows " ++
       "the energy dissipations based on software build is also a major factor in increasing " ++
       "energy consumption alongside hardware. Popular languages like Python consume lot of " ++
       "energy but make coding easier for programmers as it allows you to express syntaxes " ++
       "in fewer lines of code. However, different interpreters/compilers impact energy use " ++
       "accordingly. Therefore, the Ulto Project was born out of the necessity to address " ++
       "the growing energy demands of the ICT sector. With an increasing global focus on " ++
       "sustainability, it is crucial to innovate at the intersection of software and " ++
       "hardware. Ulto is our answer to this challenge.",
     "    </p>",
     "",
     "    <h4>What is Ulto?</h4>",
     "    <p>",
     "        Ulto is a reversible imperative programming language that adheres to " ++
       "Landauer’s principle of data conservation. It is designed to showcase that computing " ++
       "can be both powerful and energy-efficient. The language allows for computations to " ++
       "be run forward and backward, ensuring no information is lost, which minimizes heat " ++
       "dissipation and energy use.",
     "    </p>",
     "",
     "",
     "    <h4>Key Features of Ulto:</h4>",
     "    <ul>",
     "        <li><strong>Reversible Computing:</strong> Ulto supports reversible " ++
       "computing, where operations can be undone, saving energy and reducing waste.</li>",
     "        <li><strong>Smart Evaluations:</strong> By delaying computation until " ++
       "necessary and analyzing code performance, Ulto maximizes efficiency.</li>",
     "        <li><strong>Works on Minimal Hardware:</strong> Ulto is optimized for " ++
       "low-power and hardware spec devices, making it ideal for both small-scale and " ++
       "large-scale applications.</li>",
     "        <li><strong>Profiling and Logging:</strong> Ulto’s runtime environment " ++
       "includes tools for profiling, which helps you monitor the performance and memory " ++
       "usage of your program. Detailed logs are kept of each step and reversal, allowing " ++
       "for easier debugging and analysis.</li>",
     "        <li><strong>Pruning Operations:</strong> Ulto also supports pruning, a " ++
       "process that removes old or unnecessary data from the LogStack. This helps manage " ++
       "memory usage effectively, especially in long-running programs.</li>",
     "        <li><strong>Energy Efficient:</strong> Ulto main motive was to be energy " ++
       "efficient while performing same tasks at high levels, the language offers " ++
       "performance through the use of hybrid compiler/interpreter approach where most " ++
       "operative tasks are handled by precompiled file written in C and remaining via " ++
       "optimised interpreter.</li>",
     "    </ul>",
     "",
     "    <h4>Let's Meet Up for a Coffee.</h4>",
     "    <p>",
     "        The Ulto Project is developed by Aman Thapa Magar who is passionate about " ++
       "making computing more energy-efficient.",
     "    </p>",
     "",
     "</div>",
     ""]

end Site
end Retrace
