import StanHighlight.Label

/-!
Names of the functions and distributions that the language provides. The density of
a distribution is called by the distribution's name with a suffix, so the densities
are not listed one by one. An older family of suffixes is deprecated, but a
distribution whose own name ends in such a suffix is not.
-/

namespace StanHighlight.Vocabulary

def distributions : List String :=
  ["bernoulli", "bernoulli_logit", "beta", "beta_binomial", "beta_proportion", "binomial",
   "binomial_logit", "categorical", "categorical_logit", "cauchy", "chi_square", "dirichlet",
   "discrete_range", "double_exponential", "exp_mod_normal", "exponential", "frechet", "gamma",
   "gaussian_dlm_obs", "gumbel", "hypergeometric", "inv_chi_square", "inv_gamma", "inv_wishart",
   "lkj_corr", "lkj_corr_cholesky", "logistic", "loglogistic", "lognormal", "multi_gp",
   "multi_gp_cholesky", "multi_normal", "multi_normal_cholesky", "multi_normal_prec",
   "multi_student_t", "multinomial", "multinomial_logit", "neg_binomial", "neg_binomial_2",
   "neg_binomial_2_log", "neg_binomial_2_log_glm", "normal", "normal_id_glm", "ordered_logistic",
   "ordered_probit", "pareto", "pareto_type_2", "poisson", "poisson_log", "poisson_log_glm",
   "rayleigh", "scaled_inv_chi_square", "skew_double_exponential", "skew_normal", "std_normal",
   "student_t", "uniform", "von_mises", "weibull", "wiener", "wishart"]

def densitySuffixes : List String := ["_lpdf", "_lpmf", "_lcdf", "_lccdf", "_lupdf", "_lupmf"]

/-- Suffixes that made a density of a distribution's name before the present ones. -/
def retiredSuffixes : List String := ["_cdf_log", "_ccdf_log", "_log"]

/-- Deprecated functions that are not densities. -/
def deprecatedFunctions : List String :=
  ["binomial_coefficient_log", "get_lp", "if_else", "increment_log_prob", "integrate_ode",
   "multiply_log", "cov_exp_quad"]

def odeFunctions : List String :=
  ["integrate_ode_rk45", "integrate_ode_bdf", "integrate_ode_adams", "ode_rk45", "ode_rk45_tol",
   "ode_bdf", "ode_bdf_tol", "ode_adams", "ode_adams_tol", "ode_ckrk", "ode_ckrk_tol",
   "ode_adjoint_tol_ctl"]

def algebraSolvers : List String :=
  ["algebra_solver", "algebra_solver_newton", "solve_newton", "solve_newton_tol", "solve_powell",
   "solve_powell_tol"]

/-- All other functions. -/
def functions : List String :=
  ["abs", "acos", "acosh", "add_diag", "append_array", "append_col", "append_row", "asin",
   "asinh", "atan", "atan2", "atanh", "bessel_first_kind", "bessel_second_kind", "beta", "block",
   "cbrt", "ceil", "chol2inv", "cholesky_decompose", "choose", "col", "cols",
   "columns_dot_product", "columns_dot_self", "cos", "cosh", "cov_exp_quad", "crossprod",
   "csr_extract_u", "csr_extract_v", "csr_extract_w", "csr_matrix_times_vector",
   "csr_to_dense_matrix", "cumulative_sum", "determinant", "diag_matrix", "diag_post_multiply",
   "diag_pre_multiply", "diagonal", "digamma", "dims", "distance", "dot_product", "dot_self",
   "e", "eigenvalues_sym", "eigenvectors_sym", "erf", "erfc", "exp", "exp2", "expm1", "fabs",
   "falling_factorial", "fdim", "floor", "fma", "fmax", "fmin", "fmod", "gamma_p", "gamma_q",
   "head", "hypot", "identity_matrix", "inc_beta", "int_step", "inv", "inv_cloglog", "inv_logit",
   "inv_Phi", "inv_sqrt", "inv_square", "inverse", "inverse_spd", "is_inf", "is_nan", "lbeta",
   "lchoose", "lgamma", "linspaced_array", "linspaced_vector", "lmgamma", "lmultiply", "log",
   "log10", "log1m", "log1m_exp", "log1m_inv_logit", "log1p", "log1p_exp", "log2",
   "log_determinant", "log_diff_exp", "log_falling_factorial", "log_inv_logit",
   "log_inv_logit_diff", "log_mix", "log_modified_bessel_first_kind", "log_rising_factorial",
   "log_softmax", "log_sum_exp", "logical_and", "logical_eq", "logical_gt", "logical_gte",
   "logical_lt", "logical_lte", "logical_negation", "logical_neq", "logical_or", "logit",
   "machine_precision", "map_rect", "matrix_exp", "matrix_exp_multiply", "matrix_power", "max",
   "mdivide_left_spd", "mdivide_left_tri_low", "mdivide_right_spd", "mdivide_right_tri_low",
   "mean", "min", "modified_bessel_first_kind", "modified_bessel_second_kind",
   "multiply_lower_tri_self_transpose", "negative_infinity", "norm", "not_a_number",
   "num_elements", "one_hot_array", "one_hot_int_array", "one_hot_row_vector", "one_hot_vector",
   "ones_array", "ones_int_array", "ones_row_vector", "ones_vector", "owens_t", "Phi",
   "Phi_approx", "pi", "positive_infinity", "pow", "prod", "qr_Q", "qr_R", "qr_thin_Q",
   "qr_thin_R", "quad_form", "quad_form_diag", "quad_form_sym", "rank", "reduce_sum",
   "rep_array", "rep_matrix", "rep_row_vector", "rep_vector", "reverse", "rising_factorial",
   "round", "row", "rows", "rows_dot_product", "rows_dot_self", "scale_matrix_exp_multiply",
   "sd", "segment", "sin", "singular_values", "sinh", "size", "softmax", "sort_asc", "sort_desc",
   "sort_indices_asc", "sort_indices_desc", "sqrt", "sqrt2", "square", "squared_distance",
   "step", "sub_col", "sub_row", "sum", "svd_U", "svd_V", "tail", "tan", "tanh", "tcrossprod",
   "tgamma", "to_array_1d", "to_array_2d", "to_int", "to_matrix", "to_row_vector", "to_vector",
   "trace", "trace_gen_quad_form", "trace_quad_form", "trigamma", "trunc", "uniform_simplex",
   "variance", "zeros_array", "zeros_int_array", "zeros_row_vector", "zeros_vector"]

/-- Every distribution's name with every one of some suffixes. -/
def distributionsWith (suffixes : List String) : List String :=
  distributions.flatMap fun name => suffixes.map fun suffix => name ++ suffix

def densities : List String := distributionsWith densitySuffixes

def retiredDensities : List String := distributionsWith retiredSuffixes

def isDistribution (word : String) : Bool := distributions.contains word

def isDensity (word : String) : Bool := densities.contains word

/-- Whether a word names a deprecated function. The retired spelling of one
distribution's density can be the name of another distribution, which is in use. -/
def isDeprecated (word : String) : Bool :=
  deprecatedFunctions.contains word || !isDistribution word && retiredDensities.contains word

/-- The family of functions that a word belongs to. Deprecation wins over the others. -/
def builtin? (word : String) : Option Builtin :=
  if isDeprecated word then some .deprecated
  else if odeFunctions.contains word then some .ode
  else if algebraSolvers.contains word then some .algebraSolver
  else if functions.contains word then some .function
  else none

end StanHighlight.Vocabulary
